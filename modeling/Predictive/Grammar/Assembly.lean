import Predictive.Grammar.Text

/-!
# Grammars assembled in one go

A text can also be read in one go, with a grammar that grows. First the left
sides are declared, then the terminals; then every alternative becomes a
production, word by word, where a word without a symbol is a new terminal unless
terminals are declared. Each step looks at what is known so far only, and the
first one that meets a fault ends the reading.
-/

namespace Predictive

open Text

namespace Grammar

/-- Without nonterminals and terminals; the marks have their symbols. -/
def blank : Grammar where
  nonTerminals := []
  terminals := []
  symbolTable := .marks
  start := 0
  indexed := rfl

/-- Adds a nonterminal without productions under the next number, and enters its name. -/
def addNonTerminal (g : Grammar) (name : String) : Grammar :=
  { g with
    nonTerminals := g.nonTerminals ++ [⟨g.size, name, []⟩]
    symbolTable := g.symbolTable.insert name (.nonTerminal g.size)
    indexed := g.indexed.concat name [] }

/-- Adds a terminal under the next number, and enters its name. -/
def addTerminal (g : Grammar) (name : String) : Grammar :=
  { g with
    terminals := g.terminals ++ [name]
    symbolTable := g.symbolTable.insert name (.terminal g.terminals.length) }

def declareLeft (g : Grammar) (r : RuleText) : Except GrammarError Grammar :=
  if (tokens r.name).length ≠ 1 then .error (.invalidNonTerminal r.name)
  else match g.symbolOf? r.name with
    | some (.nonTerminal _) => .ok g
    | some _ => .error (.reservedName r.name)
    | none => .ok (g.addNonTerminal r.name)

def declareTerminal (g : Grammar) (name : String) : Except GrammarError Grammar :=
  if (tokens name).length ≠ 1 ∨ trim name ≠ name then .error (.invalidTerminal name)
  else match g.symbolOf? name with
    | some (.terminal _) => .ok g
    | some (.nonTerminal _) => .error (.ambiguousSymbol name)
    | some _ => .error (.reservedName name)
    | none => .ok (g.addTerminal name)

/-- The symbol of a word, which may be a new terminal if none are declared. -/
def intern? (declared : Bool) (g : Grammar) (word : String) : Option (Grammar × Symbol) :=
  match g.symbolOf? word with
  | some s => some (g, s)
  | none => if declared then none else some (g.addTerminal word, .terminal g.terminals.length)

/-- Adds a word to the production read so far. -/
def readWord (declared : Bool) (r : RuleText) (alternative : String) (state : Grammar × Production) (word : String) :
    Except GrammarError (Grammar × Production) :=
  match intern? declared state.1 word with
  | none => .error (.undeclaredSymbol r.name (trim alternative) word)
  | some (g, .epsilon) => .ok (g, state.2)
  | some (_, .endOfInput) => .error (.reservedSymbol r.name (trim alternative) word)
  | some (g, s) => .ok (g, state.2 ++ [s])

def readAlternative (declared : Bool) (r : RuleText) (left : Nat) (g : Grammar) (alternative : String) :
    Except GrammarError Grammar :=
  ((tokens alternative).foldlM (readWord declared r alternative) (g, [])).map fun state =>
    (state.1.addProduction? left state.2).getD state.1

def readRule (declared : Bool) (g : Grammar) (r : RuleText) : Except GrammarError Grammar :=
  match g.symbolOf? r.name with
  | some (.nonTerminal left) => r.alternatives.foldlM (readAlternative declared r left) g
  | _ => .error (.invalidNonTerminal r.name)

def startAt (g : Grammar) (start : String) : Except GrammarError Grammar :=
  match g.symbolOf? (trim start) with
  | some (.nonTerminal i) => .ok (g.withStart i)
  | _ => .error (.unknownStartSymbol start)

end Grammar

def GrammarText.assemble (t : GrammarText) : Except GrammarError Grammar :=
  if t.rules.isEmpty then .error .emptyGrammar
  else
    (t.rules.foldlM Grammar.declareLeft .blank).bind fun g =>
      ((t.terminals.getD []).foldlM Grammar.declareTerminal g).bind fun g =>
        (t.rules.foldlM (Grammar.readRule t.terminals.isSome) g).bind fun g => g.startAt t.start

end Predictive
