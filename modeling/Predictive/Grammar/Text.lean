import Predictive.Grammar.Basic
import Predictive.Grammar.Error
import Predictive.Text.Blank

/-!
# Grammars written as text

A rule is a left side with its alternatives; an alternative is read word by
word, and the word ε stands for nothing. `GrammarText.faults` lists what is
wrong with a text, and `GrammarText.read` is its grammar if that is nothing and
the first fault otherwise.
-/

namespace Predictive

open Text

structure RuleText where
  left : String
  alternatives : List String
deriving DecidableEq

/-- Without a list of terminals, every word that is no left side is one. -/
structure GrammarText where
  rules : List RuleText
  start : String
  terminals : Option (List String)
deriving DecidableEq

/-- The names without repetitions, in the order of first occurrence. -/
def distinct : List String → List String
  | [] => []
  | name :: names => name :: (distinct names).filter fun other => other != name

theorem mem_distinct {name : String} {names : List String} : name ∈ distinct names ↔ name ∈ names := by
  induction names with
  | nil => exact Iff.rfl
  | cons n names ih =>
    by_cases e : name = n <;> simp [distinct, ih, e]

theorem nodup_distinct (names : List String) : (distinct names).Nodup := by
  induction names with
  | nil => exact List.nodup_nil
  | cons n names ih =>
    exact List.nodup_cons.2 ⟨by simp, ih.filter _⟩

theorem distinct_of_nodup {names : List String} (h : names.Nodup) : distinct names = names := by
  induction names with
  | nil => rfl
  | cons name names ih =>
    obtain ⟨hname, hnames⟩ := List.nodup_cons.mp h
    rw [distinct, ih hnames, List.filter_eq_self.mpr]
    intro other hother
    have hne : other ≠ name := fun e => hname (e ▸ hother)
    simpa using hne

theorem distinct_concat (names : List String) (name : String) :
    distinct (names ++ [name]) = if name ∈ names then distinct names else distinct names ++ [name] := by
  induction names with
  | nil => rfl
  | cons n names ih =>
    rw [List.cons_append, distinct, distinct, ih]
    by_cases e : name = n
    · subst e
      by_cases hmem : name ∈ names <;> simp [hmem]
    · by_cases hmem : name ∈ names <;> simp [hmem, e]

theorem distinct_prefix (names later : List String) : distinct names <+: distinct (names ++ later) := by
  induction later generalizing names with
  | nil => simp
  | cons name later ih =>
    have hstep : distinct names <+: distinct (names ++ [name]) := by
      rw [distinct_concat]
      split
      · exact List.prefix_refl _
      · exact List.prefix_append _ _
    have hrest := ih (names ++ [name])
    rw [List.append_assoc] at hrest
    exact hstep.trans hrest

/-! ## Names and words of a text -/

def RuleText.name (r : RuleText) : String := trim r.left

namespace GrammarText

def names (t : GrammarText) : List String := distinct (t.rules.map RuleText.name)

def bodyTokens (t : GrammarText) : List String :=
  t.rules.flatMap fun r => r.alternatives.flatMap tokens

def alphabet (t : GrammarText) : Alphabet where
  nonTerminals := t.names
  terminals := distinct <|
    match t.terminals with
    | some declared => declared
    | none => t.bodyTokens.filter fun word => !(t.names.contains word || isReserved word)

/-! ## Faults -/

def nameFault (r : RuleText) : Option GrammarError :=
  if (tokens r.left).length ≠ 1 then some (.invalidNonTerminal r.name)
  else if isReserved r.name then some (.reservedName r.name)
  else none

def terminalFault (t : GrammarText) (name : String) : Option GrammarError :=
  if tokens name ≠ [name] then some (.invalidTerminal name)
  else if isReserved name then some (.reservedName name)
  else if name ∈ t.names then some (.ambiguousSymbol name)
  else none

/-- Whether a word other than the end mark may stand in an alternative. -/
def admits (t : GrammarText) (word : String) : Bool :=
  match t.terminals with
  | none => true
  | some declared => word == epsilonName || t.names.contains word || declared.contains word

def wordFault (t : GrammarText) (r : RuleText) (alternative word : String) : Option GrammarError :=
  if word = endName then some (.reservedSymbol r.name (trim alternative) word)
  else if t.admits word then none
  else some (.undeclaredSymbol r.name (trim alternative) word)

def ruleFaults (t : GrammarText) (r : RuleText) : List GrammarError :=
  r.alternatives.flatMap fun alternative =>
    (tokens alternative).filterMap (t.wordFault r alternative)

/-- All faults: of the left sides, of the declared terminals, of the
alternatives, and of the start. -/
def faults (t : GrammarText) : List GrammarError :=
  (if t.rules.isEmpty then [.emptyGrammar] else []) ++
  t.rules.filterMap nameFault ++
  (t.terminals.getD []).filterMap t.terminalFault ++
  t.rules.flatMap t.ruleFaults ++
  (if trim t.start ∈ t.names then [] else [.unknownStartSymbol t.start])

/-! ## The grammar of a text -/

end GrammarText

def Alphabet.production (a : Alphabet) (alternative : String) : Production :=
  ((tokens alternative).filterMap a.symbolOf?).filter fun s => s != .epsilon

namespace GrammarText

def productionsOf (t : GrammarText) (name : String) : List Production :=
  (t.rules.filter fun r => r.name == name).flatMap fun r =>
    r.alternatives.map t.alphabet.production

def grammar (t : GrammarText) : Grammar :=
  .ofLists (t.names.map fun name => (name, t.productionsOf name)) t.alphabet.terminals (t.names.idxOf (trim t.start))

def read (t : GrammarText) : Except GrammarError Grammar :=
  match t.faults with
  | [] => .ok t.grammar
  | fault :: _ => .error fault

theorem nonTerminal?_grammar (t : GrammarText) (i : Nat) :
    t.grammar.nonTerminal? i = t.names[i]?.map fun name => ⟨i, name, t.productionsOf name⟩ := by
  rw [grammar, Grammar.nonTerminal?_ofLists, List.getElem?_map, Option.map_map]
  rfl

theorem terminals_grammar (t : GrammarText) : t.grammar.terminals = t.alphabet.terminals := rfl

theorem map_nonTerminals_grammar (t : GrammarText) : t.grammar.nonTerminals.map (fun a => (a.name, a.productions)) =
    t.names.map fun name => (name, t.productionsOf name) :=
  Grammar.map_nonTerminals_ofLists ..

theorem size_grammar (t : GrammarText) : t.grammar.size = t.names.length := by
  rw [grammar, Grammar.size_ofLists, List.length_map]

theorem alphabet_grammar (t : GrammarText) : t.grammar.alphabet = t.alphabet := by
  rw [grammar, Grammar.alphabet_ofLists, List.map_map, Function.comp_def, List.map_id']
  rfl

theorem symbolOf?_grammar (t : GrammarText) (name : String) :
    t.grammar.symbolOf? name = t.alphabet.symbolOf? name := by
  rw [← alphabet_grammar]
  exact Grammar.symbolOf?_ofLists ..

theorem read_eq_ok_iff {t : GrammarText} {g : Grammar} :
    t.read = .ok g ↔ t.faults = [] ∧ t.grammar = g := by
  unfold read
  cases t.faults <;> simp

theorem read_eq_error_iff {t : GrammarText} {e : GrammarError} :
    t.read = .error e ↔ t.faults.head? = some e := by
  unfold read
  cases t.faults <;> simp

end GrammarText

end Predictive
