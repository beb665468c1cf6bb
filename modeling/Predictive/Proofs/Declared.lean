import Predictive.Proofs.Agreement
import Predictive.Proofs.Rearrangement
import Predictive.Proofs.Rebuilding

/-!
# Declared terminals

A text may declare its terminals or leave them to be found in the alternatives.
With the terminals found declared it has the same grammar. With any others it
has the same rules, numbers terminals as declared and may have some that stand
in no alternative. The two grammars have the same listing, and they embed in
each other by name.
-/

namespace Predictive

open Text

/-- Renamed productions have the same names, so they are listed as they were. -/
theorem Renaming.KeepsNames.listing?_eq {ρ : Renaming} {g h : Grammar} (hρ : ρ.KeepsNames g h) (hg : g.InRange)
    (hh : h.InRange) (hright : h.nonTerminals = g.nonTerminals.map fun a =>
      { a with productions := a.productions.map fun p => p.map ρ.symbol }) : h.listing? = g.listing? := by
  rw [Grammar.listing?_eq hg, Grammar.listing?_eq hh, hright, List.map_map]
  congr 2
  apply List.map_congr_left
  intro a ha
  simp only [Function.comp_apply, List.map_map, NamedRule.mk.injEq, true_and]
  apply List.map_congr_left
  intro p hp
  obtain ⟨i, k, hr⟩ := Grammar.exists_rule_of_mem_productions ha hp
  obtain ⟨names, hnames⟩ := Grammar.exists_productionNames? (hg.symbols _ hr)
  rw [Function.comp_apply, hnames, hρ.productionNames? hnames]

namespace GrammarText
variable {rules : List RuleText} {start : String}

/-! ## Faults -/

theorem faults_undeclared {terminals : List String} (h : (mk rules start (some terminals)).faults = []) :
    (mk rules start none).faults = [] := by
  rw [faults_eq_nil_iff] at h ⊢
  refine ⟨h.rules, h.names, fun name hname => absurd hname List.not_mem_nil, ?_, h.start⟩
  intro r hr alternative ha word hword
  obtain ⟨hne, _⟩ := wordFault_eq_none_iff.mp (h.words r hr alternative ha word hword)
  exact wordFault_eq_none_iff.mpr ⟨hne, rfl⟩

theorem faults_declared_own (h : (mk rules start none).faults = []) :
    (mk rules start (some (mk rules start none).alphabet.terminals)).faults = [] := by
  have hproper := proper_alphabet h
  have hfaultless := faults_eq_nil_iff.mp h
  apply faults_eq_nil_iff.mpr
  refine ⟨hfaultless.rules, hfaultless.names, fun name hname => ?_, ?_, hfaultless.start⟩
  · apply terminalFault_eq_none_iff.mpr
    exact ⟨tokens_of_mem_terminals h hname, hproper.unreserved name (.inr hname), hproper.disjoint name hname⟩
  · intro r hr alternative ha word hword
    obtain ⟨hne, _⟩ := wordFault_eq_none_iff.mp (hfaultless.words r hr alternative ha word hword)
    refine wordFault_eq_none_iff.mpr ⟨hne, ?_⟩
    have hsymbol := Option.isSome_iff_exists.mpr (exists_symbolOf? h hr ha hword)
    rw [Alphabet.symbolOf?_isSome_iff] at hsymbol
    have hcases : word = epsilonName ∨ word ∈ (mk rules start none).alphabet.nonTerminals ∨
        word ∈ (mk rules start none).alphabet.terminals := by
      simpa [isReserved, hne] using hsymbol
    unfold admits
    simp only [Bool.or_eq_true, beq_iff_eq, List.contains_iff_mem, or_assoc]
    exact hcases

theorem grammar_declared_own :
    (mk rules start (some (mk rules start none).alphabet.terminals)).grammar = (mk rules start none).grammar := by
  have halphabet : (mk rules start (some (mk rules start none).alphabet.terminals)).alphabet =
      (mk rules start none).alphabet :=
    congrArg (Alphabet.mk _) (distinct_of_nodup (nodup_distinct _))
  unfold grammar productionsOf
  rw [halphabet]
  rfl

/-! ## Texts with the same rules -/

variable {declared declared' : Option (List String)}

theorem embedsByName (ht : (mk rules start declared).faults = []) (ht' : (mk rules start declared').faults = [])
    (hterminals : ∀ word ∈ (mk rules start declared).bodyTokens, word ∈ (mk rules start declared).alphabet.terminals →
      word ∈ (mk rules start declared').alphabet.terminals) :
    ((mk rules start declared).alphabet.renumbering (mk rules start declared').alphabet fun _ => id).EmbedsByName
      (mk rules start declared).grammar (mk rules start declared').grammar where
  toEmbeds := embeds ht ht' (List.Subset.refl _) hterminals rfl fun _ => ⟨fun _ _ h => h, fun _ _ _ _ h => h⟩
  nonTerminal i hi := by
    have hlt : i < (mk rules start declared).names.length := size_grammar _ ▸ hi
    have hname : (mk rules start declared).alphabet.nonTerminals[i]? = some _ := List.getElem?_eq_getElem hlt
    rw [Alphabet.nonTerminal_renumbering hname]
    exact idxOf_of_nodup (proper_alphabet ht').nonTerminals_nodup hname
  production _ _ := rfl
  sameName s hs hs' := by
    obtain ⟨name, hname⟩ := Grammar.exists_nameOf? hs
    have hisSome := Grammar.nameOf?_isSome.mpr hs'
    refine ⟨name, hname, ?_⟩
    unfold Grammar.nameOf? at *
    rw [alphabet_grammar] at *
    exact Alphabet.nameOf?_renumbering_of_isSome hname hisSome

section
variable {terminals : List String} (h : (mk rules start (some terminals)).faults = [])
include h

theorem terminals_undeclared_subset : (mk rules start none).alphabet.terminals ⊆ terminals := by
  intro word hword
  obtain ⟨hbody, hname, hreserved⟩ := mem_terminals.mp hword
  obtain ⟨r, hr, alternative, ha, hw⟩ := mem_bodyTokens.mp hbody
  obtain ⟨_, hadmits⟩ := wordFault_eq_none_iff.mp ((faults_eq_nil_iff.mp h).words r hr alternative ha word hw)
  simp only [admits, Bool.or_eq_true, beq_iff_eq, List.contains_iff_mem] at hadmits
  rcases hadmits with (rfl | hadmits) | hadmits
  · cases hreserved
  · exact absurd hadmits hname
  · exact hadmits

theorem terminals_undeclared_subset_alphabet :
    (mk rules start none).alphabet.terminals ⊆ (mk rules start (some terminals)).alphabet.terminals :=
  fun _ hword => mem_terminals.mpr (terminals_undeclared_subset h hword)

theorem listing?_undeclared :
    (mk rules start (some terminals)).grammar.listing? = (mk rules start none).grammar.listing? := by
  have h' := faults_undeclared h
  have hterminals := terminals_undeclared_subset_alphabet h
  let f : String → Nat → Nat := fun _ => id
  have hnames : ((mk rules start none).alphabet.renumbering (mk rules start (some terminals)).alphabet f).KeepsNames
      (mk rules start none).grammar (mk rules start (some terminals)).grammar :=
    keepsNames (List.Subset.refl _) hterminals
  apply hnames.listing?_eq (wellFormed_of_faults h').toInRange (wellFormed_of_faults h).toInRange
  refine List.ext_getElem? fun i => ?_
  show (mk rules start (some terminals)).grammar.nonTerminal? i = _
  rw [List.getElem?_map]
  show _ = ((mk rules start none).grammar.nonTerminal? i).map _
  rw [nonTerminal?_grammar, nonTerminal?_grammar, Option.map_map]
  refine Option.map_congr fun name _ => ?_
  simp only [Function.comp_apply, productionsOf_eq, List.map_map, NonTerminal.mk.injEq, true_and]
  apply List.map_congr_left
  intro alternative ha
  exact production_eq_map h' h (List.Subset.refl _) (fun _ _ hword => hterminals hword) ha

theorem agrees_undeclared : (mk rules start none).grammar.Agrees (mk rules start (some terminals)).grammar := by
  have h' := faults_undeclared h
  have hterminals := terminals_undeclared_subset_alphabet h
  have hproper := proper_alphabet h
  have hused : ∀ word ∈ (mk rules start (some terminals)).bodyTokens,
      word ∈ (mk rules start (some terminals)).alphabet.terminals → word ∈ (mk rules start none).alphabet.terminals :=
    fun word hbody hword =>
      mem_terminals.mpr ⟨hbody, hproper.disjoint word hword, hproper.unreserved word (.inr hword)⟩
  apply (embedsByName h' h fun _ _ hword => hterminals hword).agrees (embedsByName h h' hused)
  · rw [size_grammar, size_grammar]
    rfl
  · exact (wellFormed_of_faults h').toInRange
  · exact (wellFormed_of_faults h).toInRange
  · exact namesDistinct h'
  · exact namesDistinct h

end

/-- A text has the same grammar with the terminals of this grammar declared. If
it has one with other terminals declared, it has one without, and the two have
one listing and agree on FIRST, FOLLOW and tables. -/
theorem declared_agrees (rules : List RuleText) (start : String) :
    (∀ g, (mk rules start none).read = .ok g → (mk rules start (some g.terminals)).read = .ok g) ∧
    ∀ terminals h, (mk rules start (some terminals)).read = .ok h → ∃ g, (mk rules start none).read = .ok g ∧
      g.start = h.start ∧ (∃ l, g.listing? = some l ∧ h.listing? = some l) ∧ g.terminals.Nodup ∧
      g.terminals ⊆ terminals ∧ g.Agrees h := by
  constructor
  · intro g hg
    obtain ⟨hfaults, rfl⟩ := read_eq_ok_iff.mp hg
    exact read_eq_ok_iff.mpr ⟨faults_declared_own hfaults, grammar_declared_own⟩
  · intro terminals h hh
    obtain ⟨hfaults, rfl⟩ := read_eq_ok_iff.mp hh
    have hfaults' := faults_undeclared hfaults
    have hlisting := Grammar.listing?_eq (wellFormed_of_faults hfaults').toInRange
    refine ⟨_, read_eq_ok_iff.mpr ⟨hfaults', rfl⟩, rfl, ⟨_, hlisting, ?_⟩, nodup_distinct _,
      terminals_undeclared_subset hfaults, agrees_undeclared hfaults⟩
    rw [listing?_undeclared hfaults, hlisting]

end GrammarText

/-- No alternative has `d`. -/
def idleText : GrammarText := { runText with terminals := some ["d", "c", "a", "b"] }

namespace GrammarText

theorem declared_agrees_idle : ∃ g h, (mk runText.rules runText.start none).read = .ok g ∧
    idleText.read = .ok h ∧ g ≠ h ∧ g.terminals = ["b", "c", "a"] ∧
    (mk runText.rules runText.start (some ["b", "c", "a"])).read = .ok g ∧ g.Agrees h := by
  obtain ⟨hown, hother⟩ := declared_agrees runText.rules runText.start
  have hread : idleText.read = .ok idleText.grammar := read_eq_ok_iff.mpr ⟨by decide +kernel, rfl⟩
  obtain ⟨g, hg, _, _, _, _, hagrees⟩ := hother _ _ hread
  have hback := hown g hg
  obtain ⟨_, rfl⟩ := read_eq_ok_iff.mp hg
  have hterminals : (mk runText.rules runText.start none).grammar.terminals = ["b", "c", "a"] := by decide +kernel
  exact ⟨_, _, hg, hread, by decide +kernel, hterminals, hterminals ▸ hback, hagrees⟩

end GrammarText

end Predictive
