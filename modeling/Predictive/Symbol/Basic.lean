import Predictive.Ascending

/-!
# Grammar symbols

A terminal and a nonterminal are known by their number in the grammar. Symbols
are ordered by kind, terminals first and the end of input last, and within a
kind by number.
-/

namespace Predictive

inductive Symbol where
  | terminal (index : Nat)
  | nonTerminal (index : Nat)
  | epsilon
  | endOfInput
deriving DecidableEq

inductive Symbol.Kind where
  | terminal
  | nonTerminal
  | epsilon
  | endOfInput
deriving DecidableEq

namespace Symbol

def kind : Symbol → Kind
  | terminal _ => .terminal
  | nonTerminal _ => .nonTerminal
  | epsilon => .epsilon
  | endOfInput => .endOfInput

/-- A lookahead is what a parser can see next: a terminal or the end of input. -/
def isLookahead : Symbol → Bool
  | terminal _ | endOfInput => true
  | nonTerminal _ | epsilon => false

/-! ## Order -/

def Kind.rank : Kind → Nat
  | terminal => 0
  | nonTerminal => 1
  | epsilon => 2
  | endOfInput => 3

/-- The number of a terminal or nonterminal; the two marks have none. -/
def index : Symbol → Nat
  | terminal i | nonTerminal i => i
  | epsilon | endOfInput => 0

def Before (a b : Symbol) : Prop :=
  a.kind.rank < b.kind.rank ∨ a.kind.rank = b.kind.rank ∧ a.index < b.index

instance : DecidableRel Before := fun a b =>
  inferInstanceAs (Decidable (a.kind.rank < b.kind.rank ∨ _))

theorem eq_of_rank_index {a b : Symbol} (hk : a.kind.rank = b.kind.rank) (hi : a.index = b.index) :
    a = b := by
  cases a <;> cases b <;> simp_all [kind, Kind.rank, index]

instance : KeyOrder Symbol where
  before := Before
  decBefore := inferInstance
  before_irrefl a h := by
    rcases h with h | h
    · exact Nat.lt_irrefl _ h
    · exact Nat.lt_irrefl _ h.2
  before_trans h₁ h₂ := by
    unfold Before at *
    omega
  before_connected h₁ h₂ := by
    unfold Before at h₁ h₂
    exact eq_of_rank_index (by omega) (by omega)

/-- The symbols in ascending order, repetitions kept. -/
def sort (symbols : List Symbol) : List Symbol :=
  symbols.mergeSort fun a b => !decide (Before b a)

end Symbol

end Predictive
