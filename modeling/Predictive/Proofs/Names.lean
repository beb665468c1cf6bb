import Predictive.Proofs.Assembly

/-!
# Names and numbers

The names of a faultless text are words: left sides are trimmed to one, and a
terminal is declared as one or cut out of an alternative. They are proper as
well, so the symbol table, which is in step with the lists of names, knows every
symbol by one name, and the lists know every name by one symbol.
-/

namespace Predictive

open Text

namespace Alphabet

def names (a : Alphabet) : List String := a.nonTerminals ++ a.terminals

def OfWords (a : Alphabet) : Prop := ∀ name ∈ a.names, tokens name = [name]

variable {a : Alphabet}

theorem mem_names {name : String} : name ∈ a.names ↔ name ∈ a.nonTerminals ∨ name ∈ a.terminals := List.mem_append

namespace Proper
variable (ha : a.Proper)
include ha

theorem nodup_names : a.names.Nodup := by
  apply List.nodup_append.mpr
  refine ⟨ha.nonTerminals_nodup, ha.terminals_nodup, fun name hname name' hname' e => ?_⟩
  exact ha.disjoint name' hname' (e ▸ hname)

theorem symbolOf?_eq_some_iff {name : String} {s : Symbol} : a.symbolOf? name = some s ↔ a.nameOf? s = some name :=
  ⟨nameOf?_of_symbolOf?, ha.symbolOf?_of_nameOf?⟩

end Proper

end Alphabet

namespace GrammarText
variable {t : GrammarText} (h : t.faults = [])
include h

theorem tokens_of_mem_names {name : String} (hname : name ∈ t.names) : tokens name = [name] := by
  obtain ⟨r, hr, rfl⟩ := mem_names.mp hname
  obtain ⟨hlength, _⟩ := nameFault_eq_none_iff.mp ((faults_eq_nil_iff.mp h).names r hr)
  obtain ⟨word, hword⟩ := List.length_eq_one_iff.mp hlength
  have hmem : word ∈ tokens r.left := by simp [hword]
  obtain ⟨hne, hblank⟩ := of_mem_tokens hmem
  rw [RuleText.name, trim_of_tokens hword, tokens_of_no_blank hne hblank]

theorem tokens_of_mem_terminals {name : String} (hname : name ∈ t.alphabet.terminals) : tokens name = [name] := by
  rw [mem_terminals] at hname
  cases ht : t.terminals with
  | none =>
    rw [ht] at hname
    obtain ⟨r, _, alternative, _, hword⟩ := mem_bodyTokens.mp hname.1
    obtain ⟨hne, hblank⟩ := of_mem_tokens hword
    exact tokens_of_no_blank hne hblank
  | some declared =>
    rw [ht] at hname
    have hfault := (faults_eq_nil_iff.mp h).terminals name (by rw [ht]; exact hname)
    exact (terminalFault_eq_none_iff.mp hfault).1

theorem ofWords_alphabet : t.alphabet.OfWords := by
  intro name hname
  rcases Alphabet.mem_names.mp hname with hname | hname
  · exact tokens_of_mem_names h hname
  · exact tokens_of_mem_terminals h hname

theorem proper_grammar : t.grammar.alphabet.Proper := by
  rw [alphabet_grammar]
  exact proper_alphabet h

theorem ofWords_grammar : t.grammar.alphabet.OfWords := by
  rw [alphabet_grammar]
  exact ofWords_alphabet h

end GrammarText

/-- What the parts of a grammar say of one another. -/
structure Grammar.Consistent (g : Grammar) : Prop where
  index : ∀ i a, g.nonTerminal? i = some a → a.index = i
  number : ∀ i a, g.nonTerminal? i = some a →
    g.symbolOf? a.name = some (.nonTerminal i) ∧ ∀ k p, a.productions[k]? = some p ↔ ⟨i, k, p⟩ ∈ g.rules
  word : ∀ name ∈ g.alphabet.names, name ≠ "" ∧ ∀ c ∈ name.toList, isBlank c = false
  unreserved : ∀ name ∈ g.alphabet.names, name ≠ epsilonName ∧ name ≠ endName
  distinct : g.alphabet.names.Nodup
  keys : ∀ name, name ∈ g.symbolTable.entries.map Prod.fst ↔
    name = epsilonName ∨ name = endName ∨ name ∈ g.alphabet.names
  entries_iff : ∀ name s, (name, s) ∈ g.symbolTable.entries ↔ g.symbolOf? name = some s
  symbolOf?_iff : ∀ name s, g.symbolOf? name = some s ↔ g.nameOf? s = some name
  nameOf?_iff : ∀ s, (g.nameOf? s).isSome = true ↔ g.Has s
  symbols : ∀ a ∈ g.nonTerminals, ∀ p ∈ a.productions, ∀ s ∈ p, g.Has s ∧ s ≠ .epsilon ∧ s ≠ .endOfInput
  start : g.start < g.size

namespace Grammar

theorem exists_rule_of_mem_productions {g : Grammar} {a : NonTerminal} (ha : a ∈ g.nonTerminals) {p : Production}
    (hp : p ∈ a.productions) : ∃ i k, ⟨i, k, p⟩ ∈ g.rules := by
  obtain ⟨i, hi⟩ := List.getElem?_of_mem ha
  obtain ⟨k, hk⟩ := List.getElem?_of_mem hp
  exact ⟨i, k, mem_rules.mpr (Option.bind_eq_some_iff.mpr ⟨a, hi, hk⟩)⟩

end Grammar

namespace Grammar

theorem InStep.mem_keys_iff {g : Grammar} (hstep : g.InStep) {name : String} :
    name ∈ g.symbolTable.entries.map Prod.fst ↔ name = epsilonName ∨ name = endName ∨ name ∈ g.alphabet.names := by
  have hkey : name ∈ g.symbolTable.entries.map Prod.fst ↔ (g.symbolOf? name).isSome = true := by
    rw [List.mem_map, Option.isSome_iff_exists]
    constructor
    · rintro ⟨⟨_, s⟩, he, rfl⟩
      exact ⟨s, SymbolTable.mem_entries.mp he⟩
    · rintro ⟨s, hs⟩
      exact ⟨(name, s), SymbolTable.mem_entries.mpr hs, rfl⟩
  rw [hkey, hstep name, Alphabet.symbolOf?_isSome_iff, ← Alphabet.mem_names]
  simp [isReserved, or_assoc]

theorem InStep.consistent {g : Grammar} (hstep : g.InStep) (hnames : g.alphabet.Proper) (hwords : g.alphabet.OfWords)
    (hg : g.WellFormed) : g.Consistent where
  index _ _ := index_of_nonTerminal?
  number i a ha := by
    refine ⟨?_, fun k p => ?_⟩
    · exact (hstep a.name).trans (hnames.symbolOf?_of_nameOf? (nameOf?_nonTerminal ha))
    · rw [mem_rules, production?, ha, Option.bind_some]
  word name hname := of_mem_tokens (s := name) (by simp [hwords name hname])
  unreserved name hname := by
    have hreserved := hnames.unreserved name (Alphabet.mem_names.mp hname)
    simpa [isReserved] using hreserved
  distinct := hnames.nodup_names
  keys _ := hstep.mem_keys_iff
  entries_iff _ _ := SymbolTable.mem_entries
  symbolOf?_iff name s := by
    rw [hstep name]
    exact hnames.symbolOf?_eq_some_iff
  nameOf?_iff _ := nameOf?_isSome
  symbols a ha p hp s hs := by
    obtain ⟨i, k, hr⟩ := exists_rule_of_mem_productions ha hp
    exact ⟨hg.symbols _ hr s hs, hg.plain _ hr s hs⟩
  start := hg.start

end Grammar

theorem GrammarText.inRange_consistent_of_read {t : GrammarText} {g : Grammar} (h : t.read = .ok g) :
    g.InRange ∧ g.Consistent := by
  have hg := wellFormed_of_read h
  obtain ⟨ht, rfl⟩ := read_eq_ok_iff.mp h
  exact ⟨hg.toInRange, Grammar.inStep_ofLists.consistent (proper_grammar ht) (ofWords_grammar ht) hg⟩

/-- An assembled grammar is consistent: nonterminals store their places, names
are words, the symbol table gives each of them one symbol and no symbol to two
of them, and right sides have terminals and nonterminals of the grammar only. -/
theorem Grammar.consistent_of_assemble {t : GrammarText} {g : Grammar} (h : t.assemble = .ok g) : g.Consistent := by
  have hstep := inStep_of_assemble h
  rw [GrammarText.assemble_eq_read] at h
  have hg := GrammarText.wellFormed_of_read h
  obtain ⟨ht, rfl⟩ := GrammarText.read_eq_ok_iff.mp h
  exact hstep.consistent (GrammarText.proper_grammar ht) (GrammarText.ofWords_grammar ht) hg

/-- Blanks around left sides, a left side that comes back, and a terminal that is used before. -/
def scatteredText : GrammarText where
  rules := [⟨" S ", ["T + S", "ε"]⟩, ⟨"T", ["λ ε"]⟩, ⟨"S", [" λ\t- T"]⟩]
  start := "S "
  terminals := none

namespace Grammar

theorem consistent_of_assemble_scattered : ∃ g, scatteredText.assemble = .ok g ∧ g.Consistent ∧
    g.nonTerminals.map NonTerminal.index = [0, 1] ∧ g.alphabet.names = ["S", "T", "+", "λ", "-"] ∧
    g.symbolTable.entries = [("$", .endOfInput), ("+", .terminal 0), ("-", .terminal 2), ("S", .nonTerminal 0),
      ("T", .nonTerminal 1), ("ε", .epsilon), ("λ", .terminal 1)] := by
  have hassemble : scatteredText.assemble = .ok scatteredText.grammar := by
    rw [GrammarText.assemble_eq_read]
    exact GrammarText.read_eq_ok_iff.mpr ⟨by decide +kernel, rfl⟩
  exact ⟨_, hassemble, consistent_of_assemble hassemble, by decide +kernel, by decide +kernel, by decide +kernel⟩

end Grammar

end Predictive
