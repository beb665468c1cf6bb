import Predictive.Analysis.First

/-!
# FOLLOW

FOLLOW of a nonterminal holds the lookaheads that can stand after it. It is
computed from given FIRST sets, whether these are final or not. `Analysis` puts
both families together.
-/

namespace Predictive

namespace Grammar

/-- Adds what the rest after an occurrence can open with, and if the rest can
vanish, what can follow the whole right side. -/
def followStep? (first follow : SetFamily) (o : Occurrence) : Option SetFamily :=
  (first.firstOfSequence? o.rest).bind fun ahead =>
    (follow.extend? o.nonTerminal (ahead.erase .epsilon)).bind fun follow =>
      if Symbol.epsilon ∈ ahead then (follow.get? o.left).bind (follow.extend? o.nonTerminal)
      else some follow

def followPass? (g : Grammar) (first follow : SetFamily) : Option SetFamily :=
  g.occurrences.foldlM (followStep? first) follow

/-- The end of input can follow the start, and nothing else is known yet. -/
def followStart? (g : Grammar) : Option SetFamily :=
  (SetFamily.empty g.size).extend? g.start (.singleton .endOfInput)

/-- The families after each pass. Every pass but the last adds to a set a member
of a FIRST set, a symbol of a right side or $. -/
def followPasses? (g : Grammar) (first : SetFamily) : Option (List SetFamily) :=
  g.followStart?.bind
    (passes (g.followPass? first) (g.size * (first.weight + g.bodySize + 1) + 1))

def follow? (g : Grammar) (first : SetFamily) : Option SetFamily :=
  (g.followPasses? first).map fun families => families.getLastD (.empty g.size)

end Grammar

structure Analysis where
  first : SetFamily
  follow : SetFamily
deriving DecidableEq

def Grammar.analysis? (g : Grammar) : Option Analysis :=
  g.first?.bind fun first => (g.follow? first).map fun follow => ⟨first, follow⟩

end Predictive
