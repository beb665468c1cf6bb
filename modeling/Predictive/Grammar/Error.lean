/-!
# What can be wrong with the text of a grammar
-/

namespace Predictive

inductive GrammarError where
  /-- There are no rules. -/
  | emptyGrammar
  /-- A left side is not exactly one word. -/
  | invalidNonTerminal (name : String)
  /-- A declared terminal is not exactly one word, or has blanks around it. -/
  | invalidTerminal (name : String)
  /-- A left side or declared terminal is one of the two marks. -/
  | reservedName (name : String)
  /-- The end mark stands in an alternative. -/
  | reservedSymbol (nonTerminal production symbol : String)
  /-- A word of an alternative is neither a left side nor a declared terminal. -/
  | undeclaredSymbol (nonTerminal production symbol : String)
  /-- A declared terminal is a left side too. -/
  | ambiguousSymbol (name : String)
  /-- The start is not a left side. -/
  | unknownStartSymbol (name : String)
deriving DecidableEq

namespace GrammarError

def quoted (name : String) : String := "\"" ++ name ++ "\""

def message : GrammarError → String
  | emptyGrammar => "grammar has no rules"
  | invalidNonTerminal name => "invalid nonterminal name " ++ quoted name
  | invalidTerminal name => "invalid terminal name " ++ quoted name
  | reservedName name => quoted name ++ " is reserved and cannot be declared"
  | reservedSymbol nonTerminal production symbol =>
    nonTerminal ++ " -> " ++ production ++ ": reserved symbol " ++ quoted symbol ++
      " inside a production"
  | undeclaredSymbol nonTerminal production symbol =>
    nonTerminal ++ " -> " ++ production ++ ": " ++ quoted symbol ++
      " is neither a nonterminal nor a declared terminal"
  | ambiguousSymbol name => quoted name ++ " is declared both as a terminal and as a nonterminal"
  | unknownStartSymbol name => "start symbol " ++ quoted name ++ " is not a nonterminal"

end GrammarError

end Predictive
