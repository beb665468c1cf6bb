import Predictive.Grammar.Text

/-!
# The grammar of arithmetic expressions

Sums and products over `id`, without left recursion.
-/

namespace Predictive

def expressionText : GrammarText where
  rules := [
    ⟨"E", ["T R"]⟩,
    ⟨"R", ["+ T R", "ε"]⟩,
    ⟨"T", ["F Y"]⟩,
    ⟨"Y", ["* F Y", "ε"]⟩,
    ⟨"F", ["( E )", "id"]⟩]
  start := "E"
  terminals := none

end Predictive
