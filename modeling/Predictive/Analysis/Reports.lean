import Predictive.Analysis.Follow

/-!
# Passes that report changes

A pass can also be made with a report: every item tells whether it changed
something, and so does the pass if one of its items did. `Loop` repeats such a
pass, without a bound, and ends with the first one that reports no change.
-/

namespace Predictive

structure Report (σ : Type) where
  state : σ
  changed : Bool
deriving DecidableEq

/-- Goes on from a report; a change that was reported stays reported. -/
def Report.andThen? {σ : Type} (r : Report σ) (next : σ → Option (Report σ)) : Option (Report σ) :=
  (next r.state).map fun later => ⟨later.state, r.changed || later.changed⟩

def reportedPass? {σ ι : Type} (step : σ → ι → Option (Report σ)) (items : List ι) (s : σ) : Option (Report σ) :=
  items.foldlM (fun r x => r.andThen? fun t => step t x) ⟨s, false⟩

/-- From `s` the loop hands over `states`, one after each pass, and ends in `last`. -/
inductive Loop {σ : Type} (pass : σ → Option (Report σ)) : σ → List σ → σ → Prop
  | stop {s t : σ} (h : pass s = some ⟨t, false⟩) : Loop pass s [t] t
  | again {s t last : σ} {states : List σ} (h : pass s = some ⟨t, true⟩) (hrest : Loop pass t states last) :
    Loop pass s (t :: states) last

/-- Adds the members of `s` to set number `i`, and reports whether the set has more members now. -/
def SetFamily.grow? (f : SetFamily) (i : Nat) (s : SymbolSet) : Option (Report SetFamily) :=
  (f.get? i).map fun t => ⟨⟨f.sets.set i (t ∪ s)⟩, decide (t.size < (t ∪ s).size)⟩

namespace Grammar

def firstReport? (first : SetFamily) (r : Rule) : Option (Report SetFamily) :=
  (first.firstOfSequence? r.right).bind (first.grow? r.left)

def reportedFirstPass? (g : Grammar) : SetFamily → Option (Report SetFamily) := reportedPass? firstReport? g.rules

def followReport? (first follow : SetFamily) (o : Occurrence) : Option (Report SetFamily) :=
  (first.firstOfSequence? o.rest).bind fun ahead =>
    (follow.grow? o.nonTerminal (ahead.erase .epsilon)).bind fun opened =>
      if Symbol.epsilon ∈ ahead then
        opened.andThen? fun follow => (follow.get? o.left).bind (follow.grow? o.nonTerminal)
      else some opened

def reportedFollowPass? (g : Grammar) (first : SetFamily) : SetFamily → Option (Report SetFamily) :=
  reportedPass? (followReport? first) g.occurrences

def nullableReport? (known : List Bool) (a : NonTerminal) : Option (Report (List Bool)) :=
  if known[a.index]? = some true then some ⟨known, false⟩
  else (anyVanishes? known a.productions).map fun b =>
    if b then ⟨known.set a.index true, true⟩ else ⟨known, false⟩

def reportedNullablePass? (g : Grammar) : List Bool → Option (Report (List Bool)) :=
  reportedPass? nullableReport? g.nonTerminals

end Grammar

end Predictive
