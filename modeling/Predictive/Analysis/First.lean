import Predictive.Analysis.Nullable
import Predictive.Symbol.Family

/-!
# FIRST

FIRST of a sequence holds the lookaheads that can open it, and ε if all of it
can vanish. The FIRST sets of the nonterminals are reached from empty ones by
passes over the rules.
-/

namespace Predictive

namespace SetFamily

def firstOfSymbol? (first : SetFamily) : Symbol → Option SymbolSet
  | .nonTerminal i => first.get? i
  | s => some (.singleton s)

/-- The walk ends at the first symbol that cannot vanish, so a nonterminal
after it may be out of range. -/
def firstOfSequence? (first : SetFamily) : Production → Option SymbolSet
  | [] => some (.singleton .epsilon)
  | .epsilon :: rest => firstOfSequence? first rest
  | .nonTerminal i :: rest =>
    (first.get? i).bind fun s =>
      if Symbol.epsilon ∈ s then
        (firstOfSequence? first rest).map fun t => s.erase .epsilon ∪ t
      else some s
  | s :: _ => some (.singleton s)

end SetFamily

namespace Grammar

def bodySize (g : Grammar) : Nat := (g.rules.flatMap Rule.right).length

def firstPass? (g : Grammar) (first : SetFamily) : Option SetFamily :=
  g.rules.foldlM (fun f r => (f.firstOfSequence? r.right).bind (f.extend? r.left)) first

/-- The families after each pass. Every pass but the last adds to a set one of
the symbols that stand on right sides, ε or $. -/
def firstPasses? (g : Grammar) : Option (List SetFamily) :=
  passes g.firstPass? (g.size * (g.bodySize + 2) + 1) (.empty g.size)

def first? (g : Grammar) : Option SetFamily :=
  g.firstPasses?.map fun families => families.getLastD (.empty g.size)

end Grammar

end Predictive
