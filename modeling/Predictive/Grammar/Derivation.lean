import Mathlib.Logic.Relation
import Predictive.Grammar.Basic

/-!
# Derivations

What a grammar derives, apart from any table. A sentential form is expanded at
one nonterminal; an ε in it may be left out. A leftmost derivation is recorded
as the numbers of the productions that it uses.
-/

namespace Predictive

namespace Grammar

inductive Produces (g : Grammar) : List Symbol → List Symbol → Prop
  | expand {i k : Nat} {p : Production} (u v : List Symbol) (h : g.production? i k = some p) :
    Produces g (u ++ .nonTerminal i :: v) (u ++ p ++ v)
  | vanish (u v : List Symbol) : Produces g (u ++ .epsilon :: v) (u ++ v)

abbrev Derives (g : Grammar) : List Symbol → List Symbol → Prop := Relation.ReflTransGen g.Produces

theorem Produces.append {g : Grammar} {a b : List Symbol} (h : g.Produces a b) (u v : List Symbol) :
    g.Produces (u ++ a ++ v) (u ++ b ++ v) := by
  cases h with
  | expand u' v' h => simpa using Produces.expand (u ++ u') (v' ++ v) h
  | vanish u' v' => simpa using Produces.vanish (u ++ u') (v' ++ v)

theorem Derives.append {g : Grammar} {a b : List Symbol} (h : g.Derives a b) (u v : List Symbol) :
    g.Derives (u ++ a ++ v) (u ++ b ++ v) := by
  induction h with
  | refl => exact .refl
  | tail _ hs ih => exact ih.tail (hs.append u v)

/-- What holds of all symbols of right sides is kept by derivations. -/
theorem forall_mem_of_derives {g : Grammar} {Q : Symbol → Prop} (hQ : ∀ r ∈ g.rules, ∀ s ∈ r.right, Q s)
    {a b : List Symbol} (h : g.Derives a b) (ha : ∀ s ∈ a, Q s) : ∀ s ∈ b, Q s := by
  induction h with
  | refl => exact ha
  | tail _ hs ih =>
    intro s hs'
    cases hs with
    | vanish u v =>
      rcases List.mem_append.mp hs' with hs' | hs'
      · exact ih s (by simp [hs'])
      · exact ih s (by simp [hs'])
    | @expand i k p u v h =>
      simp only [List.mem_append] at hs'
      rcases hs' with (hs' | hs') | hs'
      · exact ih s (by simp [hs'])
      · exact hQ ⟨i, k, p⟩ (mem_rules.mpr h) s hs'
      · exact ih s (by simp [hs'])

/-! ## Leftmost derivations -/

def IsTerminal (s : Symbol) : Prop := ∃ i, s = .terminal i

/-- Production number `k` is used at the first nonterminal. -/
inductive ProducesLeftmost (g : Grammar) (k : Nat) : List Symbol → List Symbol → Prop
  | expand {i : Nat} {p : Production} {w : List Symbol} (hw : ∀ s ∈ w, IsTerminal s) (v : List Symbol)
    (h : g.production? i k = some p) :
    ProducesLeftmost g k (w ++ .nonTerminal i :: v) (w ++ p ++ v)

/-- A leftmost derivation by the productions `ks`. -/
inductive DerivesLeftmost (g : Grammar) : List Nat → List Symbol → List Symbol → Prop
  | refl (a : List Symbol) : DerivesLeftmost g [] a a
  | step {k : Nat} {ks : List Nat} {a b c : List Symbol} (hs : ProducesLeftmost g k a b)
    (h : DerivesLeftmost g ks b c) : DerivesLeftmost g (k :: ks) a c

theorem DerivesLeftmost.derives {g : Grammar} {ks : List Nat} {a b : List Symbol}
    (h : g.DerivesLeftmost ks a b) : g.Derives a b := by
  induction h with
  | refl a => exact .refl
  | step hs _ ih =>
    cases hs with
    | expand _ v h => exact .head (.expand _ v h) ih

end Grammar

end Predictive
