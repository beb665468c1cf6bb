import Predictive.Display.Listing
import Predictive.Proofs.Names

/-!
# Grammars read from their listing

The listing of a grammar has the names of its nonterminals and of the symbols on
right sides. Read over the terminals of the grammar it gives the grammar again:
names with a blank between them are cut apart there, each of them has one symbol,
and the empty production is listed as ε, which is read as nothing.
-/

namespace Predictive

open Text

theorem tokens_append_blank (s r : String) : tokens (s ++ " " ++ r) = tokens s ++ tokens r := by
  have hblank : isBlank ' ' = true := rfl
  simp [tokens, words_append_blank hblank]

theorem tokens_unwords : ∀ {names : List String}, (∀ name ∈ names, tokens name = [name]) →
    tokens (unwords names) = names
  | [], _ => by simp [unwords, tokens]
  | [name], h => by simpa [unwords] using h
  | name :: other :: names, h => by
    have ih : tokens (unwords (other :: names)) = other :: names :=
      tokens_unwords fun n hn => h n (List.mem_cons_of_mem _ hn)
    unfold unwords at *
    rw [String.intercalate_cons_cons, tokens_append_blank, h name List.mem_cons_self, ih]
    rfl

def NamedRule.text (r : NamedRule) : RuleText := ⟨r.left, r.rights.map unwords⟩

namespace Grammar

/-- The listing as a text, with the terminals of the grammar declared. -/
def text? (g : Grammar) : Option GrammarText :=
  g.listing?.bind fun l => (g.nonTerminal? g.start).map fun a =>
    ⟨l.rules.map NamedRule.text, a.name, some g.terminals⟩

def shown (g : Grammar) (a : NonTerminal) : RuleText :=
  ⟨a.name, a.productions.map fun p => unwords ((g.productionNames? p).getD [])⟩

variable {g : Grammar}

theorem productionNames?_eq (hg : g.InRange) {a : NonTerminal} (ha : a ∈ g.nonTerminals) :
    ∀ p ∈ a.productions, g.productionNames? p = some ((g.productionNames? p).getD []) := by
  intro p hp
  obtain ⟨i, k, hr⟩ := exists_rule_of_mem_productions ha hp
  obtain ⟨names, hnames⟩ := exists_productionNames? (hg.symbols _ hr)
  simp [hnames]

theorem listing?_eq (hg : g.InRange) : g.listing? = some ⟨g.nonTerminals.map fun a =>
    ⟨a.name, a.productions.map fun p => (g.productionNames? p).getD []⟩⟩ := by
  unfold listing?
  rw [mapM_eq_some_map fun a ha => by rw [mapM_eq_some_map (productionNames?_eq hg ha), Option.map_some],
    Option.map_some]

theorem text?_eq (hg : g.InRange) {a : NonTerminal} (ha : g.nonTerminal? g.start = some a) :
    g.text? = some ⟨g.nonTerminals.map g.shown, a.name, some g.terminals⟩ := by
  unfold text?
  rw [listing?_eq hg, ha]
  simp [NamedRule.text, shown, Function.comp_def]

/-- The text that `text?` gives, for a start of any name. -/
def listed (g : Grammar) (start : String) : GrammarText := ⟨g.nonTerminals.map g.shown, start, some g.terminals⟩

theorem symbols_of_names (hnames : g.alphabet.Proper) : ∀ {p : Production} {names : List String},
    p.mapM g.nameOf? = some names →
      names.filterMap g.alphabet.symbolOf? = p ∧ ∀ name ∈ names, ∃ s ∈ p, g.nameOf? s = some name
  | [], _, h => by cases h; simp
  | s :: p, _, h => by
    rw [List.mapM_cons] at h
    obtain ⟨name, hname, h⟩ := Option.bind_eq_some_iff.mp h
    obtain ⟨names, hp, e⟩ := Option.bind_eq_some_iff.mp h
    cases e
    obtain ⟨ih, hmem⟩ := symbols_of_names hnames hp
    refine ⟨?_, ?_⟩
    · rw [List.filterMap_cons, hnames.symbolOf?_of_nameOf? hname, ih]
    · intro n hn
      rcases List.mem_cons.mp hn with rfl | hn
      · exact ⟨s, List.mem_cons_self, hname⟩
      · obtain ⟨r, hr, hn⟩ := hmem n hn
        exact ⟨r, List.mem_cons_of_mem s hr, hn⟩

theorem mem_names_of_nameOf? {s : Symbol} (hs : s ≠ .epsilon ∧ s ≠ .endOfInput) {name : String}
    (h : g.nameOf? s = some name) : name ∈ g.alphabet.names := by
  apply Alphabet.mem_names.mpr
  cases s with
  | terminal i => exact Or.inr (List.mem_of_getElem? h)
  | nonTerminal i => exact Or.inl (List.mem_of_getElem? h)
  | epsilon => exact absurd rfl hs.1
  | endOfInput => exact absurd rfl hs.2

theorem names_of_production (hnames : g.alphabet.Proper) {p : Production} (hp : Production.Plain p)
    {names : List String} (h : g.productionNames? p = some names) :
    (∀ name ∈ names, name = epsilonName ∨ name ∈ g.alphabet.names) ∧
      (names.filterMap g.alphabet.symbolOf?).filter (fun s => s != .epsilon) = p := by
  unfold productionNames? at h
  split at h
  · rename_i hempty
    cases h
    rw [List.isEmpty_iff.mp hempty]
    exact ⟨by simp, rfl⟩
  · obtain ⟨hsymbols, hmem⟩ := symbols_of_names hnames h
    refine ⟨fun name hname => ?_, ?_⟩
    · obtain ⟨s, hs, hname⟩ := hmem name hname
      exact Or.inr (mem_names_of_nameOf? (hp s hs) hname)
    · rw [hsymbols, List.filter_eq_self.mpr]
      intro s hs
      simpa using (hp s hs).1

/-! ## The text of a listing -/

section
variable (hnames : g.alphabet.Proper) (hwords : g.alphabet.OfWords) (hg : g.WellFormed) {start : String}

section
include hwords

theorem tokens_of_mem_nonTerminals {a : NonTerminal} (ha : a ∈ g.nonTerminals) : tokens a.name = [a.name] :=
  hwords a.name (Alphabet.mem_names.mpr (.inl (List.mem_map_of_mem ha)))

theorem name_shown {a : NonTerminal} (ha : a ∈ g.nonTerminals) : (g.shown a).name = a.name :=
  trim_of_tokens (tokens_of_mem_nonTerminals hwords ha)

include hnames

theorem names_listed : (g.listed start).names = g.alphabet.nonTerminals := by
  have hmap : (g.nonTerminals.map g.shown).map RuleText.name = g.nonTerminals.map NonTerminal.name := by
    rw [List.map_map]
    exact List.map_congr_left fun a ha => name_shown hwords ha
  unfold GrammarText.names listed
  rw [hmap]
  exact distinct_of_nodup hnames.nonTerminals_nodup

theorem alphabet_listed : (g.listed start).alphabet = g.alphabet := by
  have hterminals : (g.listed start).alphabet.terminals = g.terminals := distinct_of_nodup hnames.terminals_nodup
  have hleft : (g.listed start).alphabet.nonTerminals = g.alphabet.nonTerminals := names_listed hnames hwords
  cases h : (g.listed start).alphabet
  rw [h] at hterminals hleft
  simp only at hterminals hleft
  rw [hterminals, hleft]
  rfl

include hg

theorem tokens_shown {a : NonTerminal} (ha : a ∈ g.nonTerminals) {p : Production} (hp : p ∈ a.productions) :
    ∃ names, tokens (unwords ((g.productionNames? p).getD [])) = names ∧
      (∀ name ∈ names, name = epsilonName ∨ name ∈ g.alphabet.names) ∧
      (names.filterMap g.alphabet.symbolOf?).filter (fun s => s != .epsilon) = p := by
  obtain ⟨i, k, hr⟩ := exists_rule_of_mem_productions ha hp
  obtain ⟨names, hshown⟩ := exists_productionNames? (hg.symbols _ hr)
  obtain ⟨hmem, hsymbols⟩ := names_of_production hnames (hg.plain _ hr) hshown
  refine ⟨names, ?_, hmem, hsymbols⟩
  rw [hshown, Option.getD_some]
  apply tokens_unwords
  intro name hname
  rcases hmem name hname with rfl | hname
  · rfl
  · exact hwords name hname

theorem productionsOf_listed {a : NonTerminal} (ha : a ∈ g.nonTerminals) :
    (g.listed start).productionsOf a.name = a.productions := by
  have hnodup : g.nonTerminals.Nodup := List.Nodup.of_map _ hnames.nonTerminals_nodup
  have hsame : ∀ b ∈ g.nonTerminals, ((fun r : RuleText => r.name == a.name) ∘ g.shown) b = (b == a) := by
    intro b hb
    rw [Function.comp_apply, name_shown hwords hb, Bool.eq_iff_iff, beq_iff_eq, beq_iff_eq]
    exact ⟨fun e => List.inj_on_of_nodup_map hnames.nonTerminals_nodup hb ha e, fun e => e ▸ rfl⟩
  have hrule : (g.listed start).rules.filter (fun r => r.name == a.name) = [g.shown a] := by
    unfold listed
    rw [List.filter_map, List.filter_congr hsame, List.filter_beq, List.count_eq_one_of_mem hnodup ha]
    rfl
  unfold GrammarText.productionsOf
  rw [hrule, alphabet_listed hnames hwords, List.flatMap_singleton]
  unfold shown
  rw [List.map_map]
  apply Eq.trans (List.map_congr_left fun p hp => ?_) (List.map_id a.productions)
  obtain ⟨names, htokens, _, hsymbols⟩ := tokens_shown hnames hwords hg ha hp
  rw [Function.comp_apply, Alphabet.production, htokens, hsymbols]
  rfl

theorem grammar_listed (hstep : g.InStep) {a : NonTerminal} (ha : g.nonTerminal? g.start = some a) :
    (g.listed a.name).grammar = g := by
  have hstart : g.alphabet.nonTerminals[g.start]? = some a.name := nameOf?_nonTerminal ha
  refine inStep_ofLists.ext hstep (List.ext_getElem? fun i => ?_) ?_ ?_
  · show (g.listed a.name).grammar.nonTerminal? i = g.nonTerminals[i]?
    rw [GrammarText.nonTerminal?_grammar, names_listed hnames hwords]
    show Option.map _ ((g.nonTerminals.map NonTerminal.name)[i]?) = _
    rw [List.getElem?_map, Option.map_map]
    refine (Option.map_congr fun b hb => ?_).trans Option.map_id'
    rw [Function.comp_apply, productionsOf_listed hnames hwords hg (List.mem_of_getElem? hb),
      ← index_of_nonTerminal? hb]
  · have hlists : (g.listed a.name).alphabet = g.alphabet := alphabet_listed hnames hwords
    exact congrArg Alphabet.terminals hlists
  · show (g.listed a.name).names.idxOf (trim a.name) = g.start
    rw [names_listed hnames hwords, trim_of_tokens (tokens_of_mem_nonTerminals hwords (List.mem_of_getElem? ha)),
      idxOf_of_nodup hnames.nonTerminals_nodup hstart]

theorem faultless_listed {a : NonTerminal} (ha : a ∈ g.nonTerminals) : (g.listed a.name).Faultless where
  rules e := by
    rw [List.map_eq_nil_iff.mp e] at ha
    exact List.not_mem_nil ha
  names r hr := by
    obtain ⟨b, hb, rfl⟩ := List.mem_map.mp hr
    have hname : b.name ∈ g.alphabet.nonTerminals := List.mem_map_of_mem hb
    apply GrammarText.nameFault_eq_none_iff.mpr
    rw [name_shown hwords hb]
    refine ⟨?_, hnames.unreserved b.name (.inl hname)⟩
    show (tokens b.name).length = 1
    rw [tokens_of_mem_nonTerminals hwords hb]
    rfl
  terminals name hname := by
    have hname' : name ∈ g.alphabet.terminals := hname
    apply GrammarText.terminalFault_eq_none_iff.mpr
    rw [names_listed hnames hwords]
    exact ⟨hwords name (Alphabet.mem_names.mpr (.inr hname')), hnames.unreserved name (.inr hname'),
      hnames.disjoint name hname'⟩
  words r hr alternative halt word hword := by
    obtain ⟨b, hb, rfl⟩ := List.mem_map.mp hr
    obtain ⟨p, hp, rfl⟩ := List.mem_map.mp halt
    obtain ⟨names, htokens, hmem, _⟩ := tokens_shown hnames hwords hg hb hp
    rw [htokens] at hword
    apply GrammarText.wordFault_eq_none_iff.mpr
    unfold GrammarText.admits
    rw [names_listed hnames hwords]
    rcases hmem word hword with rfl | hname
    · exact ⟨by decide, by simp [listed]⟩
    · have hreserved := hnames.unreserved word (Alphabet.mem_names.mp hname)
      have hadmits : word ∈ g.alphabet.nonTerminals ∨ word ∈ g.terminals := Alphabet.mem_names.mp hname
      simp only [isReserved, Bool.or_eq_false_iff, beq_eq_false_iff_ne] at hreserved
      refine ⟨hreserved.2, ?_⟩
      simpa [listed, or_assoc] using (Or.inr hadmits : word = epsilonName ∨ _)
  start := by
    rw [names_listed hnames hwords]
    show trim a.name ∈ g.alphabet.nonTerminals
    rw [trim_of_tokens (tokens_of_mem_nonTerminals hwords ha)]
    exact List.mem_map_of_mem ha

end

end

theorem exists_text? {t : GrammarText} (h : t.read = .ok g) :
    ∃ t', g.text? = some t' ∧ t'.faults = [] ∧ t'.grammar = g := by
  have hg := GrammarText.wellFormed_of_read h
  obtain ⟨ht, rfl⟩ := GrammarText.read_eq_ok_iff.mp h
  have hnames := GrammarText.proper_grammar ht
  have hwords := GrammarText.ofWords_grammar ht
  obtain ⟨a, ha⟩ : ∃ a, t.grammar.nonTerminal? t.grammar.start = some a := ⟨_, List.getElem?_eq_getElem hg.start⟩
  refine ⟨_, text?_eq hg.toInRange ha, ?_, grammar_listed hnames hwords hg inStep_ofLists ha⟩
  exact GrammarText.faults_eq_nil_iff.mpr (faultless_listed hnames hwords hg (List.mem_of_getElem? ha))

/-- An assembled grammar has a listing, and from the listing the same grammar is
assembled, with the same numbers and the same symbol table. -/
theorem assemble_text {t : GrammarText} (h : t.assemble = .ok g) : ∃ t', g.text? = some t' ∧ t'.assemble = .ok g := by
  rw [GrammarText.assemble_eq_read] at h
  obtain ⟨t', htext, hfaults, hgrammar⟩ := exists_text? h
  refine ⟨t', htext, ?_⟩
  rw [GrammarText.assemble_eq_read]
  exact GrammarText.read_eq_ok_iff.mpr ⟨hfaults, hgrammar⟩

end Grammar

/-- Signs for names, an empty production written in two ways, and a left side without alternatives. -/
def signText : GrammarText where
  rules := [⟨" S", ["|  S ->", "ε ε", ""]⟩, ⟨"->", []⟩]
  start := "S"
  terminals := none

namespace Grammar

theorem assemble_text_sign : ∃ g t', signText.assemble = .ok g ∧ g.text? = some t' ∧ t'.assemble = .ok g ∧
    t'.rules = [⟨"S", ["| S ->", "ε", "ε"]⟩, ⟨"->", []⟩] ∧ t'.terminals = some ["|"] ∧
    g.nonTerminals.map NonTerminal.index = [0, 1] ∧
    g.symbolTable.entries = [("$", .endOfInput), ("->", .nonTerminal 1), ("S", .nonTerminal 0),
      ("|", .terminal 0), ("ε", .epsilon)] := by
  have hassemble : signText.assemble = .ok signText.grammar := by
    rw [GrammarText.assemble_eq_read]
    exact GrammarText.read_eq_ok_iff.mpr ⟨by decide +kernel, rfl⟩
  have hshown : signText.grammar.text?.map (fun t' => (t'.rules, t'.terminals)) =
      some ([⟨"S", ["| S ->", "ε", "ε"]⟩, ⟨"->", []⟩], some ["|"]) := by decide +kernel
  obtain ⟨t', ht', hback⟩ := assemble_text hassemble
  rw [ht', Option.map_some, Option.some.injEq, Prod.mk.injEq] at hshown
  exact ⟨_, t', hassemble, ht', hback, hshown.1, hshown.2, by decide +kernel, by decide +kernel⟩

end Grammar

end Predictive
