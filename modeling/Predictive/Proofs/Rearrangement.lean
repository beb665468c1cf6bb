import Mathlib.Data.List.Perm.Basic
import Predictive.Proofs.Renumbering

/-!
# The order of a text

In a rearranged text the rules, the alternatives of a rule and the declared
terminals stand in another order. The text has the same names and is faultless
if the other one is, but numbers are given out by first occurrence, so those of
its grammar are others. The grammars go into each other by renamings that keep
names, and their analyses are the same up to the numbers.
-/

namespace Predictive

open Text

def RuleText.Rearranged (r r' : RuleText) : Prop := r.left = r'.left ∧ r.alternatives.Perm r'.alternatives

/-- The rules stand in another order, and so do the alternatives of each of
them and the declared terminals. -/
structure GrammarText.Rearranged (t t' : GrammarText) : Prop where
  rules : ∃ l, t.rules.Perm l ∧ List.Forall₂ RuleText.Rearranged l t'.rules
  start : t.start = t'.start
  terminals : Option.Rel List.Perm t.terminals t'.terminals

/-! ## Texts with the same names -/

theorem RuleText.Rearranged.symm {r r' : RuleText} (h : r.Rearranged r') : r'.Rearranged r :=
  ⟨h.1.symm, h.2.symm⟩

theorem RuleText.Rearranged.name {r r' : RuleText} (h : r.Rearranged r') : r.name = r'.name :=
  congrArg trim h.1

namespace GrammarText

theorem exists_rearranged : ∀ {l l' : List RuleText}, List.Forall₂ RuleText.Rearranged l l' →
    ∀ r ∈ l, ∃ r' ∈ l', r.Rearranged r'
  | _, _, .nil, _, hr => absurd hr List.not_mem_nil
  | _, _, .cons h hs, r, hr => by
    rcases List.mem_cons.mp hr with rfl | hr
    · exact ⟨_, List.mem_cons_self, h⟩
    · obtain ⟨r', hr', h'⟩ := exists_rearranged hs r hr
      exact ⟨r', List.mem_cons_of_mem _ hr', h'⟩

theorem perm_alternatives {l l' : List RuleText} (h : List.Forall₂ RuleText.Rearranged l l') (name : String) :
    ((l.filter fun r => r.name == name).flatMap RuleText.alternatives).Perm
      ((l'.filter fun r => r.name == name).flatMap RuleText.alternatives) := by
  induction h with
  | nil => exact .nil
  | cons hr _ ih =>
    rw [List.filter_cons, List.filter_cons, hr.name]
    split
    · exact hr.2.append ih
    · exact ih

namespace Rearranged
variable {t t' : GrammarText} (h : t.Rearranged t')
include h

theorem terminals_cases : t.terminals = none ∧ t'.terminals = none ∨
    ∃ l l', t.terminals = some l ∧ t'.terminals = some l' ∧ l.Perm l' := by
  have hrel := h.terminals
  cases hterminals : t.terminals with
  | none =>
    rw [hterminals] at hrel
    generalize t'.terminals = declared at hrel
    cases hrel
    exact .inl ⟨rfl, rfl⟩
  | some l =>
    rw [hterminals] at hrel
    generalize t'.terminals = declared at hrel
    cases hrel with
    | some hperm => exact .inr ⟨l, _, rfl, rfl, hperm⟩

theorem symm : t'.Rearranged t where
  rules := by
    obtain ⟨l, hperm, hrules⟩ := h.rules
    have hcomp : Relation.Comp (List.Forall₂ RuleText.Rearranged) List.Perm t'.rules t.rules :=
      ⟨l, (hrules.imp fun _ _ hr => hr.symm).flip, hperm.symm⟩
    rwa [List.forall₂_comp_perm_eq_perm_comp_forall₂] at hcomp
  start := h.start.symm
  terminals := by
    rcases h.terminals_cases with ⟨hnone, hnone'⟩ | ⟨l, l', hl, hl', hperm⟩
    · rw [hnone, hnone']
      exact .none
    · rw [hl, hl']
      exact .some hperm.symm

theorem exists_rule {r : RuleText} (hr : r ∈ t.rules) : ∃ r' ∈ t'.rules, r.Rearranged r' := by
  obtain ⟨l, hperm, hrules⟩ := h.rules
  exact exists_rearranged hrules r (hperm.mem_iff.mp hr)

theorem names_subset : t.names ⊆ t'.names := by
  intro name hname
  obtain ⟨r, hr, rfl⟩ := mem_names.mp hname
  obtain ⟨r', hr', hrel⟩ := h.exists_rule hr
  exact mem_names.mpr ⟨r', hr', hrel.name.symm⟩

theorem mem_names_iff {name : String} : name ∈ t.names ↔ name ∈ t'.names :=
  ⟨fun hname => h.names_subset hname, fun hname => h.symm.names_subset hname⟩

theorem bodyTokens_subset : t.bodyTokens ⊆ t'.bodyTokens := by
  intro word hword
  obtain ⟨r, hr, alternative, ha, hword⟩ := mem_bodyTokens.mp hword
  obtain ⟨r', hr', hrel⟩ := h.exists_rule hr
  exact mem_bodyTokens.mpr ⟨r', hr', alternative, hrel.2.mem_iff.mp ha, hword⟩

theorem terminals_subset : t.alphabet.terminals ⊆ t'.alphabet.terminals := by
  intro name
  rw [mem_terminals, mem_terminals, h.mem_names_iff]
  rcases h.terminals_cases with ⟨hnone, hnone'⟩ | ⟨l, l', hl, hl', hperm⟩
  · rw [hnone, hnone']
    exact fun hname => ⟨h.bodyTokens_subset hname.1, hname.2⟩
  · rw [hl, hl']
    exact hperm.mem_iff.mp

theorem admits_eq (word : String) : t.admits word = t'.admits word := by
  have hnames : t.names.contains word = t'.names.contains word := by
    rw [Bool.eq_iff_iff, List.contains_iff_mem, List.contains_iff_mem]
    exact h.mem_names_iff
  unfold admits
  rcases h.terminals_cases with ⟨hnone, hnone'⟩ | ⟨l, l', hl, hl', hperm⟩
  · rw [hnone, hnone']
  · rw [hl, hl']
    simp only [hnames, hperm.contains_eq]

theorem faults_eq_nil (ht : t.faults = []) : t'.faults = [] := by
  rw [faults_eq_nil_iff] at ht ⊢
  refine ⟨fun hnil => ?_, fun r hr => ?_, fun name hname => ?_, fun r hr alternative ha word hw => ?_, ?_⟩
  · obtain ⟨r, hr⟩ := List.exists_mem_of_ne_nil _ ht.rules
    obtain ⟨r', hr', _⟩ := h.exists_rule hr
    rw [hnil] at hr'
    exact List.not_mem_nil hr'
  · obtain ⟨q, hq, hrel⟩ := h.symm.exists_rule hr
    have hname := nameFault_eq_none_iff.mp (ht.names q hq)
    rwa [← hrel.1, ← hrel.name, ← nameFault_eq_none_iff] at hname
  · have hdeclared : name ∈ t.terminals.getD [] := by
      rcases h.terminals_cases with ⟨hnone, hnone'⟩ | ⟨l, l', hl, hl', hperm⟩
      · rw [hnone'] at hname
        exact absurd hname List.not_mem_nil
      · rw [hl'] at hname
        rw [hl]
        exact hperm.mem_iff.mpr hname
    have hterminal := terminalFault_eq_none_iff.mp (ht.terminals name hdeclared)
    rwa [h.mem_names_iff, ← terminalFault_eq_none_iff] at hterminal
  · obtain ⟨q, hq, hrel⟩ := h.symm.exists_rule hr
    have hword := wordFault_eq_none_iff.mp (ht.words q hq alternative (hrel.2.mem_iff.mp ha) word hw)
    rwa [h.admits_eq, ← wordFault_eq_none_iff] at hword
  · rw [← h.start]
    exact h.names_subset ht.start

theorem alternativesOf_perm (name : String) : (t.alternativesOf name).Perm (t'.alternativesOf name) := by
  obtain ⟨l, hperm, hrules⟩ := h.rules
  exact ((hperm.filter _).flatMap_right _).trans (perm_alternatives hrules name)

/-! ## Grammars of rearranged texts -/

theorem exists_embedding (ht : t.faults = []) :
    ∃ ρ : Renaming, ρ.Embeds t.grammar t'.grammar ∧ ρ.KeepsNames t.grammar t'.grammar := by
  -- the alternatives for a name are permuted, so each production finds its new place
  choose f hf using fun name => exists_places_of_perm (h.alternativesOf_perm name)
  have hterminals : ∀ word ∈ t.bodyTokens, word ∈ t.alphabet.terminals → word ∈ t'.alphabet.terminals :=
    fun _ _ hword => h.terminals_subset hword
  exact ⟨_, embeds ht (h.faults_eq_nil ht) h.names_subset hterminals h.start hf,
    keepsNames h.names_subset h.terminals_subset⟩

end Rearranged

theorem namesDistinct {t : GrammarText} (ht : t.faults = []) : t.grammar.NamesDistinct := by
  intro s s' name hs hs'
  rw [Grammar.nameOf?, alphabet_grammar] at hs hs'
  exact (proper_alphabet ht).nameOf?_inj hs hs'

/-- A rearranged text has a grammar if the other one does. The grammars have the
same symbols, FIRST and FOLLOW, and both or none of them a strict table; these
have the same cells. -/
theorem analysis_of_rearranged {t t' : GrammarText} (h : t.Rearranged t') :
    ((∃ g, t.read = .ok g) ↔ ∃ g', t'.read = .ok g') ∧
    ∀ g g', t.read = .ok g → t'.read = .ok g' → g.SymbolsMatch g' ∧
      ∃ known known' a a' strict strict', g.nullable? = some known ∧ g'.nullable? = some known' ∧
        g.analysis? = some a ∧ g'.analysis? = some a' ∧ g.strictTable? a = some strict ∧
        g'.strictTable? a' = some strict' ∧ known.length = g.size ∧ known'.length = g'.size ∧
        (∀ i i', g.SameName g' (.nonTerminal i) (.nonTerminal i') → known[i]? = known'[i']?) ∧
        g.SetsMatch g' a.first a'.first ∧ g.SetsMatch g' a.follow a'.follow ∧
        ((∃ u, strict = .ok u) ↔ ∃ u', strict' = .ok u') ∧
        ∀ u u', strict = .ok u → strict' = .ok u' → g.TablesMatch g' u u' := by
  have hread : ∀ t : GrammarText, (∃ g, t.read = .ok g) ↔ t.faults = [] := by
    intro t
    simp [read_eq_ok_iff]
  refine ⟨?_, fun g g' hg hg' => ?_⟩
  · rw [hread, hread]
    exact ⟨h.faults_eq_nil, h.symm.faults_eq_nil⟩
  · obtain ⟨ht, rfl⟩ := read_eq_ok_iff.mp hg
    obtain ⟨ht', rfl⟩ := read_eq_ok_iff.mp hg'
    obtain ⟨ρ, hρ, hnames⟩ := h.exists_embedding ht
    obtain ⟨σ, hσ, hnames'⟩ := h.symm.exists_embedding ht'
    have hrange := (wellFormed_of_faults ht).toInRange
    have hrange' := (wellFormed_of_faults ht').toInRange
    have hσρ : σ.Undoes ρ t.grammar t'.grammar :=
      ⟨hρ, hnames.respects (namesDistinct ht'), hσ, hnames'.respects (namesDistinct ht)⟩
    obtain ⟨a, claims, ha, hF, hP, _, _, hstrict, hmem, hpair⟩ := Grammar.exists_tables hrange.bodies hrange.start
    obtain ⟨a', claims', ha', hF', hP', _, _, hstrict', hmem', hpair'⟩ :=
      Grammar.exists_tables hrange'.bodies hrange'.start
    obtain ⟨known, hknown, hsize, hflags⟩ := Grammar.exists_flags hrange.bodies hF
    obtain ⟨known', hknown', hsize', hflags'⟩ := Grammar.exists_flags hrange'.bodies hF'
    refine ⟨Renaming.symbolsMatch hnames hnames' (namesDistinct ht) (namesDistinct ht'), known, known', a, a', _, _,
      hknown, hknown', ha, ha', hstrict, hstrict', hsize, hsize', ?_, ?_, ?_, ?_, ?_⟩
    · exact fun _ _ => hσρ.flag_eq hrange hrange' hF hF' hsize hsize' hflags hflags'
    · exact hσρ.firstMatch hrange hrange' hF hF'
    · exact hσρ.followMatch hrange hrange' hF hF' hP hP'
    · exact hσρ.exists_fillStrictly_iff hF hF' hP hP' hmem hmem'
    · intro u u' hu hu'
      exact hσρ.tablesMatch hrange hrange' hF hF' hP hP' hmem hmem' hnames hpair hpair' hu hu'

end GrammarText

/-- Any number of `a` before a `b`, or a `c`. -/
def runText : GrammarText where
  rules := [⟨"S", ["A b", "c"]⟩, ⟨"A", ["a A", "ε"]⟩]
  start := "S"
  terminals := some ["a", "b", "c"]

def rearrangedRunText : GrammarText where
  rules := [⟨"A", ["ε", "a A"]⟩, ⟨"S", ["c", "A b"]⟩]
  start := "S"
  terminals := some ["c", "a", "b"]

namespace GrammarText

theorem analysis_of_rearranged_run : runText.Rearranged rearrangedRunText ∧
    ∃ g g' a a' u u', runText.read = .ok g ∧ rearrangedRunText.read = .ok g' ∧ g ≠ g' ∧ g.analysis? = some a ∧
      g'.analysis? = some a' ∧ g.strictTable? a = some (.ok u) ∧ g'.strictTable? a' = some (.ok u') ∧
      g.SetsMatch g' a.first a'.first ∧ g.SetsMatch g' a.follow a'.follow ∧ g.TablesMatch g' u u' := by
  have hrules : List.Forall₂ RuleText.Rearranged [⟨"A", ["a A", "ε"]⟩, ⟨"S", ["A b", "c"]⟩] rearrangedRunText.rules :=
    .cons ⟨rfl, by decide⟩ (.cons ⟨rfl, by decide⟩ .nil)
  have h : runText.Rearranged rearrangedRunText :=
    ⟨⟨[⟨"A", ["a A", "ε"]⟩, ⟨"S", ["A b", "c"]⟩], by decide, hrules⟩, rfl, .some (by decide)⟩
  have hread : runText.read = .ok runText.grammar := read_eq_ok_iff.mpr ⟨by decide +kernel, rfl⟩
  obtain ⟨hiff, hall⟩ := analysis_of_rearranged h
  obtain ⟨g', hread'⟩ := hiff.mp ⟨_, hread⟩
  obtain ⟨_, _, _, a, a', strict, strict', _, _, ha, ha', hstrict, hstrict', _, _, _, hfirst, hfollow, hok, htables⟩ :=
    hall _ _ hread hread'
  have hne : runText.grammar ≠ g' := by
    obtain ⟨_, rfl⟩ := read_eq_ok_iff.mp hread'
    decide +kernel
  obtain ⟨u, rfl⟩ := Grammar.exists_ok_of_isOk ha hstrict (by decide +kernel)
  obtain ⟨u', rfl⟩ := hok.mp ⟨u, rfl⟩
  exact ⟨h, _, g', a, a', u, u', hread, hread', hne, ha, ha', hstrict, hstrict', hfirst, hfollow, htables u u' rfl rfl⟩

end GrammarText

end Predictive
