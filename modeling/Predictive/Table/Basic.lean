import Predictive.Symbol.Basic

/-!
# Parsing tables

A table has at most one entry for a nonterminal and a lookahead. Its cells are
kept row by row, each row in the order of the symbols, so tables with the same
entries are equal.
-/

namespace Predictive

/-- The place of nonterminal number `row` and a lookahead. -/
structure Slot where
  row : Nat
  lookahead : Symbol
deriving DecidableEq

/-- The production to use. A vanishing entry stands for a production that
derives the empty string before this lookahead. -/
structure Entry where
  production : Nat
  vanishing : Bool
deriving DecidableEq

structure Cell where
  slot : Slot
  entry : Entry
deriving DecidableEq

def Slot.Before (a b : Slot) : Prop :=
  a.row < b.row ∨ a.row = b.row ∧ KeyOrder.before a.lookahead b.lookahead

instance : DecidableRel Slot.Before := fun a b =>
  inferInstanceAs (Decidable (a.row < b.row ∨ _))

instance : KeyOrder Slot where
  before := Slot.Before
  decBefore := inferInstance
  before_irrefl a h := by
    rcases h with h | h
    · exact Nat.lt_irrefl _ h
    · exact KeyOrder.before_irrefl a.lookahead h.2
  before_trans {a b c} h₁ h₂ := by
    rcases h₁ with h₁ | ⟨e₁, h₁⟩ <;> rcases h₂ with h₂ | ⟨e₂, h₂⟩
    · exact .inl (Nat.lt_trans h₁ h₂)
    · exact .inl (e₂ ▸ h₁)
    · exact .inl (e₁ ▸ h₂)
    · exact .inr ⟨e₁.trans e₂, KeyOrder.before_trans h₁ h₂⟩
  before_connected {a b} h₁ h₂ := by
    have hr : a.row = b.row := Nat.le_antisymm
      (Nat.not_lt.1 fun h => h₂ (.inl h)) (Nat.not_lt.1 fun h => h₁ (.inl h))
    have hl : a.lookahead = b.lookahead :=
      KeyOrder.before_connected (fun h => h₁ (.inr ⟨hr, h⟩)) fun h => h₂ (.inr ⟨hr.symm, h⟩)
    cases a
    cases b
    simp_all

structure Table where
  cells : List Cell
  ascending : Ascending Cell.slot cells
deriving DecidableEq

namespace Table

instance : EmptyCollection Table := ⟨⟨[], List.Pairwise.nil⟩⟩

def get? (t : Table) (slot : Slot) : Option Entry :=
  (t.cells.find? fun c => c.slot = slot).map Cell.entry

/-- Writes a cell, over what stands there. -/
def insert (t : Table) (c : Cell) : Table :=
  ⟨insertByKey Cell.slot c t.cells, t.ascending.insertByKey c⟩

def size (t : Table) : Nat := t.cells.length

/-! ## Entries after a write -/

@[simp] theorem get?_empty (slot : Slot) : (∅ : Table).get? slot = none := rfl

theorem get?_insert (t : Table) (c : Cell) (slot : Slot) :
    (t.insert c).get? slot = if c.slot = slot then some c.entry else t.get? slot := by
  unfold get? insert
  rw [find?_insertByKey c slot t.ascending]
  split <;> rfl

theorem mem_cells {t : Table} {c : Cell} : c ∈ t.cells ↔ t.get? c.slot = some c.entry := by
  rw [t.ascending.mem_iff_find?, get?, Option.map_eq_some_iff]
  constructor
  · exact fun h => ⟨c, h, rfl⟩
  · rintro ⟨d, h, he⟩
    have hs : d.slot = c.slot := by simpa using List.find?_some h
    have : d = c := by
      cases d
      cases c
      simp_all
    rw [h, this]

end Table

end Predictive
