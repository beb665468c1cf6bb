import Predictive.Proofs.Assembly
import Predictive.Proofs.Names
import Predictive.Proofs.Renumbering

/-!
# What a grammar stores of its text

A grammar that was read in one go has the left sides of the text as nonterminals,
the other words as terminals if none are declared, and every alternative as a
production of its left side. Rules of one left side may stand apart, and a word
may be a left side further on, but the names and the productions are in the order
of the text.
-/

namespace Predictive

open Text

/-! ## First occurrences -/

/-- The names that occur, each of them once, in the order of first occurrence. -/
structure FirstOccurrences (names occurring : List String) : Prop where
  mem_iff : ∀ name, name ∈ names ↔ name ∈ occurring
  ordered : names.Pairwise fun name later => occurring.idxOf name < occurring.idxOf later

theorem firstOccurrences_distinct (names : List String) : FirstOccurrences (distinct names) names := by
  refine ⟨fun _ => mem_distinct, ?_⟩
  induction names with
  | nil => exact List.Pairwise.nil
  | cons name names ih =>
    have hnext : ∀ other ∈ (distinct names).filter fun other => other != name,
        (name :: names).idxOf other = names.idxOf other + 1 := by
      intro other hother
      have hne : other ≠ name := by simpa using (List.mem_filter.mp hother).2
      exact List.idxOf_cons_ne names hne.symm
    refine List.pairwise_cons.mpr ⟨fun other hother => ?_, (ih.filter _).imp_of_mem fun ha hb hlt => ?_⟩
    · rw [hnext other hother, List.idxOf_cons_self]
      exact Nat.succ_pos _
    · rw [hnext _ ha, hnext _ hb]
      exact Nat.succ_lt_succ hlt

theorem perm_flatMap_filter {α : Type} {key : α → String} {keys : List String} (hkeys : keys.Nodup) {l : List α}
    (hl : ∀ x ∈ l, key x ∈ keys) : (keys.flatMap fun k => l.filter fun x => key x == k).Perm l := by
  induction keys generalizing l with
  | nil =>
    have hnil : l = [] := List.eq_nil_iff_forall_not_mem.mpr fun x hx => List.not_mem_nil (hl x hx)
    simp [hnil]
  | cons k keys ih =>
    obtain ⟨hk, hnodup⟩ := List.nodup_cons.mp hkeys
    -- the other keys take nothing from what `k` takes
    have hothers : (keys.flatMap fun k' => l.filter fun x => key x == k') =
        keys.flatMap fun k' => (l.filter fun x => !(key x == k)).filter fun x => key x == k' := by
      refine List.flatMap_congr fun k' hk' => ?_
      rw [List.filter_filter]
      refine List.filter_congr fun x _ => ?_
      by_cases e : key x = k'
      · have hne : k' ≠ k := fun e' => hk (e' ▸ hk')
        simp [e, hne]
      · simp [e]
    rw [List.flatMap_cons, hothers]
    refine ((ih hnodup fun x hx => ?_).append_left _).trans (List.filter_append_perm _ l)
    obtain ⟨hx, hne⟩ := List.mem_filter.mp hx
    exact (List.mem_cons.mp (hl x hx)).resolve_left (by simpa using hne)

/-! ## Alternatives as productions -/

/-- The symbols of the words of an alternative, where words that are ε are left out. -/
def Grammar.spelling (g : Grammar) (alternative : String) : List (Option Symbol) :=
  ((tokens alternative).filter fun word => word != epsilonName).map g.symbolOf?

theorem Alphabet.map_some_symbols {a : Alphabet} {words : List String}
    (h : ∀ word ∈ words, ∃ s, a.symbolOf? word = some s) :
    ((words.filterMap a.symbolOf?).filter fun s => s != .epsilon).map some =
      (words.filter fun word => word != epsilonName).map a.symbolOf? := by
  induction words with
  | nil => rfl
  | cons word words ih =>
    obtain ⟨⟨s, hs⟩, hwords⟩ := List.forall_mem_cons.mp h
    have hiff : s = .epsilon ↔ word = epsilonName := by
      constructor
      · rintro rfl
        exact (Option.some.inj (nameOf?_of_symbolOf? hs)).symm
      · rintro rfl
        exact (Option.some.inj hs).symm
    rw [List.filterMap_cons_some hs]
    by_cases hε : s = .epsilon
    · simp [hε, hiff.mp hε, ih hwords]
    · simp [hε, hiff.not.mp hε, hs, ih hwords]

structure Grammar.Stores (g : Grammar) (t : GrammarText) : Prop where
  nonTerminals : FirstOccurrences (g.nonTerminals.map NonTerminal.name) (t.rules.map fun r => trim r.left)
  declared : ∀ declared, t.terminals = some declared → FirstOccurrences g.terminals declared
  undeclared : t.terminals = none → FirstOccurrences g.terminals
    ((t.rules.flatMap fun r => r.alternatives.flatMap tokens).filter fun word =>
      !(t.rules.any fun r => trim r.left == word) && word != epsilonName)
  productions : ∀ a ∈ g.nonTerminals, a.productions.map (List.map some) =
    ((t.rules.filter fun r => trim r.left == a.name).flatMap RuleText.alternatives).map g.spelling
  rules : (g.nonTerminals.flatMap fun a => a.productions.map fun p => (a.name, p.map some)).Perm
    (t.rules.flatMap fun r => r.alternatives.map fun alternative => (trim r.left, g.spelling alternative))

namespace GrammarText
variable {t : GrammarText}

section
variable (h : t.faults = [])
include h

theorem ne_endName {word : String} (hword : word ∈ t.bodyTokens) : word ≠ endName := by
  obtain ⟨r, hr, alternative, ha, hw⟩ := mem_bodyTokens.mp hword
  exact (wordFault_eq_none_iff.mp ((faults_eq_nil_iff.mp h).words r hr alternative ha word hw)).1

theorem map_some_production {name alternative : String} (ha : alternative ∈ t.alternativesOf name) :
    (t.alphabet.production alternative).map some = t.grammar.spelling alternative := by
  obtain ⟨r, hr, _, ha⟩ := mem_alternativesOf.mp ha
  unfold Grammar.spelling
  rw [funext t.symbolOf?_grammar]
  exact Alphabet.map_some_symbols fun word hword => exists_symbolOf? h hr ha hword

theorem map_some_productionsOf (name : String) :
    (t.productionsOf name).map (List.map some) = (t.alternativesOf name).map t.grammar.spelling := by
  rw [productionsOf_eq, List.map_map]
  exact List.map_congr_left fun alternative ha => map_some_production h ha

theorem terminals_undeclared (ht : t.terminals = none) : t.grammar.terminals =
    distinct (t.bodyTokens.filter fun word => !(t.rules.any fun r => trim r.left == word) && word != epsilonName) := by
  have hfilter : (t.bodyTokens.filter fun word => !(t.names.contains word || isReserved word)) =
      t.bodyTokens.filter fun word => !(t.rules.any fun r => trim r.left == word) && word != epsilonName := by
    refine List.filter_congr fun word hword => ?_
    have hleft : t.names.contains word = t.rules.any fun r => trim r.left == word := by
      rw [Bool.eq_iff_iff, List.contains_iff_mem, mem_names]
      simp [RuleText.name]
    have hend : (word == endName) = false := by simpa using ne_endName h hword
    rw [hleft]
    simp [isReserved, hend, bne]
  rw [← hfilter, terminals_grammar]
  simp [alphabet, ht]

theorem perm_rules :
    (t.grammar.nonTerminals.flatMap fun a => a.productions.map fun p => (a.name, p.map some)).Perm
      (t.rules.flatMap fun r => r.alternatives.map fun alternative => (r.name, t.grammar.spelling alternative)) := by
  -- name by name, the productions are what the rules of the name spell
  have hgrouped : (t.grammar.nonTerminals.flatMap fun a => a.productions.map fun p => (a.name, p.map some)) =
      (t.names.flatMap fun name => t.rules.filter fun r => r.name == name).flatMap fun r =>
        r.alternatives.map fun alternative => (r.name, t.grammar.spelling alternative) := by
    have hlists : (t.grammar.nonTerminals.flatMap fun a => a.productions.map fun p => (a.name, p.map some)) =
        t.names.flatMap fun name => (t.productionsOf name).map fun p => (name, p.map some) := by
      have h := congrArg (fun l : List (String × List Production) =>
        l.flatMap fun x => x.2.map fun p => (x.1, p.map some)) t.map_nonTerminals_grammar
      simp only [List.flatMap_map] at h
      exact h
    rw [hlists, List.flatMap_assoc]
    refine List.flatMap_congr fun name _ => ?_
    have hpairs : ((t.productionsOf name).map fun p => (name, p.map some)) =
        ((t.productionsOf name).map (List.map some)).map (Prod.mk name) := by rw [List.map_map]; rfl
    rw [hpairs, map_some_productionsOf h, alternativesOf, List.map_flatMap, List.map_flatMap]
    refine List.flatMap_congr fun r hr => ?_
    have hname : r.name = name := by simpa using (List.mem_filter.mp hr).2
    rw [hname, List.map_map]
    rfl
  rw [hgrouped]
  exact (perm_flatMap_filter (nodup_distinct _) fun r hr => mem_names.mpr ⟨r, hr, rfl⟩).flatMap_right _

theorem stores_grammar : t.grammar.Stores t where
  nonTerminals := by
    have hnames : t.grammar.nonTerminals.map NonTerminal.name = t.names :=
      congrArg Alphabet.nonTerminals (alphabet_grammar t)
    rw [hnames]
    exact firstOccurrences_distinct _
  declared declared ht := by
    have hterminals : t.grammar.terminals = distinct declared := by simp [terminals_grammar, alphabet, ht]
    rw [hterminals]
    exact firstOccurrences_distinct _
  undeclared ht := by
    rw [terminals_undeclared h ht]
    exact firstOccurrences_distinct _
  productions a ha := by
    obtain ⟨i, hi⟩ := List.getElem?_of_mem ha
    obtain ⟨name, _, rfl⟩ := Option.map_eq_some_iff.mp ((t.nonTerminal?_grammar i).symm.trans hi)
    exact map_some_productionsOf h name
  rules := perm_rules h

end

end GrammarText

namespace Grammar

/-- A text that is read in one go is stored as it is: no name and no production
is lost, merged or added. -/
theorem stores_of_assemble {t : GrammarText} {g : Grammar} (h : t.assemble = .ok g) : t.read = .ok g ∧ g.Stores t := by
  rw [GrammarText.assemble_eq_read] at h
  obtain ⟨ht, rfl⟩ := GrammarText.read_eq_ok_iff.mp h
  exact ⟨h, GrammarText.stores_grammar ht⟩

/-- The second rule of `S` comes after `T`, and `T` is used before it is a left side. -/
theorem stores_of_assemble_scattered : ∃ g, scatteredText.assemble = .ok g ∧ g.Stores scatteredText ∧
    g.nonTerminals =
      [⟨0, "S", [[.nonTerminal 1, .terminal 0, .nonTerminal 0], [], [.terminal 1, .terminal 2, .nonTerminal 1]]⟩,
        ⟨1, "T", [[.terminal 1]]⟩] ∧
    g.terminals = ["+", "λ", "-"] := by
  have hassemble : scatteredText.assemble = .ok scatteredText.grammar := by
    rw [GrammarText.assemble_eq_read]
    exact GrammarText.read_eq_ok_iff.mpr ⟨by decide +kernel, rfl⟩
  obtain ⟨_, hstores⟩ := stores_of_assemble hassemble
  exact ⟨_, hassemble, hstores, by decide +kernel, by decide +kernel⟩

end Grammar

end Predictive
