import Predictive.Analysis.Passes
import Predictive.Grammar.Basic

/-!
# Nonterminals that vanish

A production vanishes if each of its symbols does. Productions and symbols are
looked at from the left, and only as far as the answer is open.
-/

namespace Predictive

/-- Whether a production vanishes, given what is known of the nonterminals. -/
def vanishes? (known : List Bool) : Production → Option Bool
  | [] => some true
  | .epsilon :: rest => vanishes? known rest
  | .nonTerminal i :: rest =>
    known[i]?.bind fun b => if b then vanishes? known rest else some false
  | .terminal _ :: _ | .endOfInput :: _ => some false

def anyVanishes? (known : List Bool) : List Production → Option Bool
  | [] => some false
  | p :: rest => (vanishes? known p).bind fun b => if b then some true else anyVanishes? known rest

namespace Grammar

/-- What is known after a look at a nonterminal, if it was open. -/
def nullableStep? (known : List Bool) (a : NonTerminal) : Option (List Bool) :=
  if known[a.index]? = some true then some known
  else (anyVanishes? known a.productions).map fun b => if b then known.set a.index true else known

def nullablePass? (g : Grammar) (known : List Bool) : Option (List Bool) := g.nonTerminals.foldlM nullableStep? known

/-- For each nonterminal whether it vanishes. Every pass but the last finds
another one that does. -/
def nullable? (g : Grammar) : Option (List Bool) :=
  settle g.nullablePass? (g.size + 1) (List.replicate g.size false)

end Grammar

end Predictive
