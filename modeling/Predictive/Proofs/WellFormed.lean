import Mathlib.Data.List.Nodup
import Predictive.Grammar.InRange
import Predictive.Grammar.Text

/-!
# Grammars of texts are well formed

A faultless text gives every name one symbol. A word of an alternative has a
symbol of the grammar, and the end mark is a fault wherever it stands. So a
grammar that was read is in range, and its right sides have terminals and
nonterminals only. It stays in range when productions in range are added.
-/

namespace Predictive

open Text

theorem Alphabet.nameOf?_of_symbolOf? {a : Alphabet} {name : String} {s : Symbol}
    (h : a.symbolOf? name = some s) : a.nameOf? s = some name := by
  unfold symbolOf? at h
  split at h
  · rename_i e
    cases h
    exact congrArg some e.symm
  split at h
  · rename_i e
    cases h
    exact congrArg some e.symm
  split at h
  · rename_i i hi
    cases h
    obtain ⟨hlt, hname, _⟩ := List.idxOf?_eq_some_iff.mp hi
    exact List.getElem?_eq_some_iff.mpr ⟨hlt, hname⟩
  · obtain ⟨i, hi, rfl⟩ := Option.map_eq_some_iff.mp h
    obtain ⟨hlt, hname, _⟩ := List.idxOf?_eq_some_iff.mp hi
    exact List.getElem?_eq_some_iff.mpr ⟨hlt, hname⟩

theorem Alphabet.symbolOf?_isSome_iff {a : Alphabet} {name : String} : (a.symbolOf? name).isSome = true ↔
    isReserved name = true ∨ name ∈ a.nonTerminals ∨ name ∈ a.terminals := by
  unfold symbolOf? isReserved
  by_cases hε : name = epsilonName
  · simp [hε]
  by_cases hend : name = endName
  · simp [hend, show endName ≠ epsilonName by decide]
  rw [if_neg hε, if_neg hend]
  cases h : a.nonTerminals.idxOf? name with
  | some i =>
    have hmem : name ∈ a.nonTerminals := List.isSome_idxOf?.mp (by rw [h]; rfl)
    simp [hmem]
  | none =>
    have hno : name ∉ a.nonTerminals := List.idxOf?_eq_none_iff.mp h
    simp [hε, hend, hno, List.isSome_idxOf?]

/-- No name occurs twice, and none of them is one of the two marks. -/
structure Alphabet.Proper (a : Alphabet) : Prop where
  nonTerminals_nodup : a.nonTerminals.Nodup
  terminals_nodup : a.terminals.Nodup
  disjoint : ∀ name ∈ a.terminals, name ∉ a.nonTerminals
  unreserved : ∀ name, name ∈ a.nonTerminals ∨ name ∈ a.terminals → isReserved name = false

theorem idxOf?_of_nodup {l : List String} (h : l.Nodup) {i : Nat} {name : String} (hi : l[i]? = some name) :
    l.idxOf? name = some i := by
  obtain ⟨hlt, rfl⟩ := List.getElem?_eq_some_iff.mp hi
  refine List.idxOf?_eq_some_iff.mpr ⟨hlt, rfl, fun j hj => ?_⟩
  intro e
  exact absurd ((List.getElem_inj h).mp e) (Nat.ne_of_lt hj)

theorem idxOf_of_nodup {l : List String} (h : l.Nodup) {i : Nat} {name : String} (hi : l[i]? = some name) :
    l.idxOf name = i := by
  obtain ⟨hlt, rfl⟩ := List.getElem?_eq_some_iff.mp hi
  exact h.idxOf_getElem i hlt

namespace Alphabet.Proper
variable {a : Alphabet} (ha : a.Proper)
include ha

theorem symbolOf?_of_nameOf? {s : Symbol} {name : String} (h : a.nameOf? s = some name) :
    a.symbolOf? name = some s := by
  have hname : name ∈ a.nonTerminals ∨ name ∈ a.terminals → name ≠ epsilonName ∧ name ≠ endName := by
    intro hmem
    simpa [isReserved] using ha.unreserved name hmem
  unfold symbolOf?
  cases s with
  | epsilon =>
    cases h
    rfl
  | endOfInput =>
    cases h
    rfl
  | nonTerminal i =>
    have hmem := List.mem_of_getElem? h
    obtain ⟨hε, hend⟩ := hname (.inl hmem)
    rw [if_neg hε, if_neg hend, idxOf?_of_nodup ha.nonTerminals_nodup h]
  | terminal i =>
    have hmem := List.mem_of_getElem? h
    obtain ⟨hε, hend⟩ := hname (.inr hmem)
    have hno : a.nonTerminals.idxOf? name = none := List.idxOf?_eq_none_iff.mpr (ha.disjoint name hmem)
    rw [if_neg hε, if_neg hend, hno]
    simp [idxOf?_of_nodup ha.terminals_nodup h]

theorem nameOf?_inj {s s' : Symbol} {name : String} (h : a.nameOf? s = some name) (h' : a.nameOf? s' = some name) :
    s = s' := by
  have hs := ha.symbolOf?_of_nameOf? h
  rw [ha.symbolOf?_of_nameOf? h', Option.some.injEq] at hs
  exact hs.symm

end Alphabet.Proper

/-- Neither of the two marks stands in the sequence. -/
def Production.Plain (α : Production) : Prop := ∀ s ∈ α, s ≠ .epsilon ∧ s ≠ .endOfInput

structure Grammar.WellFormed (g : Grammar) : Prop extends Grammar.InRange g where
  plain : ∀ r ∈ g.rules, Production.Plain r.right

namespace GrammarText
variable {t : GrammarText}

theorem nameFault_eq_none_iff {r : RuleText} :
    nameFault r = none ↔ (tokens r.left).length = 1 ∧ isReserved r.name = false := by
  unfold nameFault
  grind

theorem terminalFault_eq_none_iff {name : String} :
    t.terminalFault name = none ↔ tokens name = [name] ∧ isReserved name = false ∧ name ∉ t.names := by
  unfold terminalFault
  grind

theorem wordFault_eq_none_iff {r : RuleText} {alternative word : String} :
    t.wordFault r alternative word = none ↔ word ≠ endName ∧ t.admits word = true := by
  unfold wordFault
  grind

structure Faultless (t : GrammarText) : Prop where
  rules : t.rules ≠ []
  names : ∀ r ∈ t.rules, nameFault r = none
  terminals : ∀ name ∈ t.terminals.getD [], t.terminalFault name = none
  words : ∀ r ∈ t.rules, ∀ alternative ∈ r.alternatives, ∀ word ∈ tokens alternative,
    t.wordFault r alternative word = none
  start : trim t.start ∈ t.names

theorem faults_eq_nil_iff : t.faults = [] ↔ t.Faultless := by
  have hfaults : t.faults = [] ↔ t.rules ≠ [] ∧ (∀ r ∈ t.rules, nameFault r = none) ∧
      (∀ name ∈ t.terminals.getD [], t.terminalFault name = none) ∧
      (∀ r ∈ t.rules, ∀ alternative ∈ r.alternatives, ∀ word ∈ tokens alternative,
        t.wordFault r alternative word = none) ∧ trim t.start ∈ t.names := by
    simp only [faults, ruleFaults, List.append_eq_nil_iff, List.filterMap_eq_nil_iff, List.flatMap_eq_nil_iff,
      and_assoc]
    simp
  rw [hfaults]
  constructor
  · rintro ⟨hrules, hnames, hterminals, hwords, hstart⟩
    exact ⟨hrules, hnames, hterminals, hwords, hstart⟩
  · exact fun h => ⟨h.rules, h.names, h.terminals, h.words, h.start⟩

theorem mem_names {name : String} : name ∈ t.names ↔ ∃ r ∈ t.rules, r.name = name := by
  rw [names, mem_distinct, List.mem_map]

theorem mem_bodyTokens {word : String} :
    word ∈ t.bodyTokens ↔ ∃ r ∈ t.rules, ∃ alternative ∈ r.alternatives, word ∈ tokens alternative := by
  simp only [bodyTokens, List.mem_flatMap]

theorem mem_terminals {name : String} : name ∈ t.alphabet.terminals ↔
    match t.terminals with
    | some declared => name ∈ declared
    | none => name ∈ t.bodyTokens ∧ name ∉ t.names ∧ isReserved name = false := by
  rw [alphabet, mem_distinct]
  cases t.terminals with
  | some declared => rfl
  | none => simp

theorem proper_alphabet (h : t.faults = []) : t.alphabet.Proper := by
  have h' := faults_eq_nil_iff.mp h
  have hnames : ∀ name ∈ t.names, isReserved name = false := by
    intro name hname
    obtain ⟨r, hr, rfl⟩ := mem_names.mp hname
    exact (nameFault_eq_none_iff.mp (h'.names r hr)).2
  have hterminals : ∀ name ∈ t.alphabet.terminals, name ∉ t.names ∧ isReserved name = false := by
    intro name hname
    rw [mem_terminals] at hname
    cases ht : t.terminals with
    | none =>
      rw [ht] at hname
      exact hname.2
    | some declared =>
      rw [ht] at hname
      have hfault := h'.terminals name (by rw [ht]; exact hname)
      exact (terminalFault_eq_none_iff.mp hfault).2.symm
  refine ⟨nodup_distinct _, nodup_distinct _, fun name hname => (hterminals name hname).1, fun name hname => ?_⟩
  rcases hname with hname | hname
  · exact hnames name hname
  · exact (hterminals name hname).2

theorem admits_iff {word : String} (hword : word ∈ t.bodyTokens) (hend : word ≠ endName) :
    t.admits word = true ↔ (t.alphabet.symbolOf? word).isSome = true := by
  rw [Alphabet.symbolOf?_isSome_iff, mem_terminals]
  have hnames : t.alphabet.nonTerminals = t.names := rfl
  cases ht : t.terminals with
  | none => by_cases hreserved : isReserved word <;> by_cases hname : word ∈ t.names <;> simp_all [admits]
  | some declared => simp [admits, ht, hnames, isReserved, hend, or_assoc]

theorem exists_symbolOf? (h : t.faults = []) {r : RuleText} (hr : r ∈ t.rules) {alternative : String}
    (ha : alternative ∈ r.alternatives) {word : String} (hw : word ∈ tokens alternative) :
    ∃ s, t.alphabet.symbolOf? word = some s := by
  have hfault := (faults_eq_nil_iff.mp h).words r hr alternative ha word hw
  obtain ⟨hend, hadmits⟩ := wordFault_eq_none_iff.mp hfault
  have hword : word ∈ t.bodyTokens := mem_bodyTokens.mpr ⟨r, hr, alternative, ha, hw⟩
  exact Option.isSome_iff_exists.mp ((admits_iff hword hend).mp hadmits)

theorem exists_word {r : Rule} (hr : r ∈ t.grammar.rules) {s : Symbol} (hs : s ∈ r.right) :
    ∃ q ∈ t.rules, ∃ alternative ∈ q.alternatives, ∃ word ∈ tokens alternative,
      t.alphabet.symbolOf? word = some s ∧ s ≠ .epsilon := by
  obtain ⟨a, ha, hp⟩ := Option.bind_eq_some_iff.mp (Grammar.mem_rules.mp hr)
  rw [nonTerminal?_grammar] at ha
  obtain ⟨name, _, rfl⟩ := Option.map_eq_some_iff.mp ha
  obtain ⟨q, hq, hright⟩ := List.mem_flatMap.mp (List.mem_of_getElem? hp)
  obtain ⟨alternative, halt, e⟩ := List.mem_map.mp hright
  rw [← e] at hs
  obtain ⟨hs, hne⟩ := List.mem_filter.mp hs
  obtain ⟨word, hword, hsymbol⟩ := List.mem_filterMap.mp hs
  exact ⟨q, (List.mem_filter.mp hq).1, alternative, halt, word, hword, hsymbol, by simpa using hne⟩

theorem wellFormed_of_faults (h : t.faults = []) : t.grammar.WellFormed where
  start := by
    rw [size_grammar]
    exact List.idxOf_lt_length_of_mem (faults_eq_nil_iff.mp h).start
  symbols r hr s hs := by
    obtain ⟨_, _, _, _, word, _, hsymbol, _⟩ := exists_word hr hs
    rw [← Grammar.nameOf?_isSome, Grammar.nameOf?, alphabet_grammar, Alphabet.nameOf?_of_symbolOf? hsymbol]
    rfl
  plain r hr s hs := by
    obtain ⟨q, hq, alternative, ha, word, hw, hsymbol, hne⟩ := exists_word hr hs
    refine ⟨hne, fun e => ?_⟩
    have hend : word = endName := by
      have hname := Alphabet.nameOf?_of_symbolOf? hsymbol
      rw [e] at hname
      exact (Option.some.inj hname).symm
    have hfault := (faults_eq_nil_iff.mp h).words q hq alternative ha word hw
    exact (wordFault_eq_none_iff.mp hfault).1 hend

theorem wellFormed_of_read {g : Grammar} (h : t.read = .ok g) : g.WellFormed := by
  obtain ⟨hfaults, rfl⟩ := read_eq_ok_iff.mp h
  exact wellFormed_of_faults hfaults

end GrammarText

namespace Grammar

theorem mem_rules_addProduction? {g h : Grammar} {i : Nat} {p : Production} (hadd : g.addProduction? i p = some h)
    {r : Rule} (hr : r ∈ h.rules) : r ∈ g.rules ∨ r.right = p := by
  obtain ⟨b, hb, hp⟩ := Option.bind_eq_some_iff.mp (mem_rules.mp hr)
  rw [nonTerminal?_addProduction? hadd] at hb
  obtain ⟨a, ha, rfl⟩ := Option.map_eq_some_iff.mp hb
  have hold : a.productions[r.index]? = some r.right → r ∈ g.rules := fun hp =>
    mem_rules.mpr (Option.bind_eq_some_iff.mpr ⟨a, ha, hp⟩)
  by_cases e : i = r.left
  · rw [if_pos e, NonTerminal.addProduction] at hp
    by_cases hk : r.index < a.productions.length
    · rw [List.getElem?_append_left hk] at hp
      exact Or.inl (hold hp)
    · rw [List.getElem?_append_right (Nat.not_lt.mp hk)] at hp
      exact Or.inr (List.mem_singleton.mp (List.mem_of_getElem? hp))
  · rw [if_neg e] at hp
    exact Or.inl (hold hp)

section
variable {g h : Grammar} {i : Nat} {p : Production} (hadd : g.addProduction? i p = some h)
include hadd

theorem start_addProduction? : h.start = g.start := by
  obtain ⟨_, _, rfl⟩ := Option.map_eq_some_iff.mp hadd
  rfl

theorem terminals_addProduction? : h.terminals = g.terminals := by
  obtain ⟨_, _, rfl⟩ := Option.map_eq_some_iff.mp hadd
  rfl

theorem size_addProduction? : h.size = g.size := by
  obtain ⟨_, _, rfl⟩ := Option.map_eq_some_iff.mp hadd
  exact List.length_modify ..

theorem has_addProduction? {s : Symbol} : h.Has s ↔ g.Has s := by
  have hsize := size_addProduction? hadd
  obtain ⟨_, _, rfl⟩ := Option.map_eq_some_iff.mp hadd
  cases s with
  | nonTerminal j => exact iff_of_eq (congrArg (j < ·) hsize)
  | terminal _ => exact Iff.rfl
  | epsilon => exact Iff.rfl
  | endOfInput => exact Iff.rfl

theorem rules_subset_addProduction? : g.rules ⊆ h.rules := by
  intro r hr
  obtain ⟨a, ha, hp⟩ := Option.bind_eq_some_iff.mp (mem_rules.mp hr)
  have hb := nonTerminal?_addProduction? hadd r.left
  rw [ha, Option.map_some] at hb
  refine mem_rules.mpr (Option.bind_eq_some_iff.mpr ⟨_, hb, ?_⟩)
  by_cases e : i = r.left
  · obtain ⟨hk, _⟩ := List.getElem?_eq_some_iff.mp hp
    rw [if_pos e, NonTerminal.addProduction, List.getElem?_append_left hk, hp]
  · rw [if_neg e, hp]

theorem InRange.addProduction? (hg : g.InRange) (hp : ∀ s ∈ p, g.Has s) : h.InRange := by
  refine ⟨?_, fun r hr s hs => (has_addProduction? hadd).mpr ?_⟩
  · rw [start_addProduction? hadd, size_addProduction? hadd]
    exact hg.start
  · rcases mem_rules_addProduction? hadd hr with hr | e
    · exact hg.symbols r hr s hs
    · exact hp s (e ▸ hs)

end

end Grammar

end Predictive
