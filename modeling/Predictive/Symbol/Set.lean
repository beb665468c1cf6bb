import Predictive.Symbol.Basic

/-!
# Finite sets of symbols

A set is the ascending list of its members, so equality of sets is equality of
members (`SymbolSet.ext`) and a set is shown in one order only.
-/

namespace Predictive

structure SymbolSet where
  toList : List Symbol
  ascending : Ascending id toList
deriving DecidableEq

namespace SymbolSet

instance : EmptyCollection SymbolSet := ⟨⟨[], List.Pairwise.nil⟩⟩

instance : Membership Symbol SymbolSet := ⟨fun s a => a ∈ s.toList⟩

instance (a : Symbol) (s : SymbolSet) : Decidable (a ∈ s) :=
  inferInstanceAs (Decidable (a ∈ s.toList))

instance : HasSubset SymbolSet := ⟨fun s t => ∀ a ∈ s.toList, a ∈ t⟩

instance (s t : SymbolSet) : Decidable (s ⊆ t) :=
  inferInstanceAs (Decidable (∀ a ∈ s.toList, a ∈ t))

theorem ext {s t : SymbolSet} (h : ∀ a, a ∈ s ↔ a ∈ t) : s = t := by
  obtain ⟨l, hl⟩ := s
  obtain ⟨m, hm⟩ := t
  have : l = m := hl.ext hm h
  subst this
  rfl

def insert (s : SymbolSet) (a : Symbol) : SymbolSet :=
  ⟨insertByKey id a s.toList, s.ascending.insertByKey a⟩

def singleton (a : Symbol) : SymbolSet := insert ∅ a

def union (s t : SymbolSet) : SymbolSet := t.toList.foldl insert s

instance : Union SymbolSet := ⟨union⟩

def filter (s : SymbolSet) (p : Symbol → Bool) : SymbolSet :=
  ⟨s.toList.filter p, s.ascending.filter p⟩

def erase (s : SymbolSet) (a : Symbol) : SymbolSet := s.filter fun b => b != a

def size (s : SymbolSet) : Nat := s.toList.length

/-! ## Members -/

theorem mem_toList {a : Symbol} {s : SymbolSet} : a ∈ s.toList ↔ a ∈ s := Iff.rfl

@[simp] theorem not_mem_empty (a : Symbol) : ¬ a ∈ (∅ : SymbolSet) := List.not_mem_nil

@[simp] theorem mem_insert {a b : Symbol} {s : SymbolSet} : a ∈ s.insert b ↔ a = b ∨ a ∈ s := by
  refine (mem_insertByKey s.ascending).trans ?_
  by_cases e : a = b <;> simp [e, mem_toList]

@[simp] theorem mem_singleton {a b : Symbol} : a ∈ singleton b ↔ a = b := by
  simp [singleton]

@[simp] theorem mem_union {a : Symbol} {s t : SymbolSet} : a ∈ s ∪ t ↔ a ∈ s ∨ a ∈ t := by
  have h : ∀ (l : List Symbol) (s : SymbolSet), a ∈ l.foldl insert s ↔ a ∈ s ∨ a ∈ l := by
    intro l
    induction l with
    | nil => simp
    | cons b l ih =>
      intro s
      rw [List.foldl_cons, ih, mem_insert, List.mem_cons, or_assoc, or_left_comm]
  exact h t.toList s

@[simp] theorem mem_filter {a : Symbol} {s : SymbolSet} {p : Symbol → Bool} :
    a ∈ s.filter p ↔ a ∈ s ∧ p a = true := List.mem_filter

@[simp] theorem mem_erase {a b : Symbol} {s : SymbolSet} : a ∈ s.erase b ↔ a ∈ s ∧ a ≠ b := by
  simp [erase]

end SymbolSet

end Predictive
