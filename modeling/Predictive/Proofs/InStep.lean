import Predictive.Grammar.Assembly
import Predictive.Proofs.WellFormed

/-!
# The symbol table in step with the lists

The assembly enters a name in two places, a list and the symbol table, and only
when the table has no symbol for it. So the table keeps in step with the lists:
it knows the names in them, each by its place, and the two marks. That the number
which a nonterminal stores is its place is shown at every step that touches the
list, where it is added (`NonTerminal.Indexed.concat`) and where it gets a
production (`NonTerminal.Indexed.modify`).
-/

namespace Predictive

/-! ## Symbols when a name is added -/

namespace Alphabet

theorem idxOf?_concat (names : List String) (name other : String) : (names ++ [name]).idxOf? other =
    (names.idxOf? other).or (if name = other then some names.length else none) := by
  unfold List.idxOf?
  rw [List.findIdx?_append, List.findIdx?_singleton]
  by_cases h : name = other <;> simp [h]

section
variable {a : Alphabet} {name : String} (h : a.symbolOf? name = none) (other : String)
include h

theorem unknown_of_symbolOf? : name ≠ epsilonName ∧ name ≠ endName ∧ a.nonTerminals.idxOf? name = none ∧
    a.terminals.idxOf? name = none := by
  have hunknown := symbolOf?_isSome_iff.not.mp (by rw [h]; exact Bool.false_ne_true)
  simpa [isReserved, List.idxOf?_eq_none_iff, and_assoc] using hunknown

theorem symbolOf?_addNonTerminal : symbolOf? ⟨a.nonTerminals ++ [name], a.terminals⟩ other =
    if name = other then some (.nonTerminal a.nonTerminals.length) else a.symbolOf? other := by
  obtain ⟨hε, hend, hname, _⟩ := unknown_of_symbolOf? h
  unfold symbolOf?
  rw [idxOf?_concat]
  by_cases e : name = other
  · subst e
    simp [hε, hend, hname]
  · simp [e]

theorem symbolOf?_addTerminal : symbolOf? ⟨a.nonTerminals, a.terminals ++ [name]⟩ other =
    if name = other then some (.terminal a.terminals.length) else a.symbolOf? other := by
  obtain ⟨hε, hend, hname, hterminal⟩ := unknown_of_symbolOf? h
  unfold symbolOf?
  rw [idxOf?_concat]
  by_cases e : name = other
  · subst e
    simp [hε, hend, hname, hterminal]
  · simp [e]

end

end Alphabet

/-! ## One step -/

/-- The table says of every name what its place in the lists says. -/
def Grammar.InStep (g : Grammar) : Prop := ∀ name, g.symbolOf? name = g.alphabet.symbolOf? name

namespace Grammar

theorem inStep_ofLists {nonTerminals : List (String × List Production)} {terminals : List String} {start : Nat} :
    (ofLists nonTerminals terminals start).InStep :=
  symbolOf?_ofLists nonTerminals terminals start

/-- Grammars that are in step are told apart by their lists. -/
theorem InStep.ext {g h : Grammar} (hg : g.InStep) (hh : h.InStep) (hnonTerminals : g.nonTerminals = h.nonTerminals)
    (hterminals : g.terminals = h.terminals) (hstart : g.start = h.start) : g = h := by
  have halphabet : g.alphabet = h.alphabet := by rw [alphabet, alphabet, hnonTerminals, hterminals]
  have htable : g.symbolTable = h.symbolTable := SymbolTable.ext fun name =>
    (hg name).trans ((congrArg (fun a => a.symbolOf? name) halphabet).trans (hh name).symm)
  exact Grammar.ext hnonTerminals hterminals htable hstart

theorem inStep_blank : blank.InStep := by
  intro name
  show SymbolTable.marks.get? name = _
  unfold SymbolTable.marks
  rw [SymbolTable.get?_insert, SymbolTable.get?_insert]
  by_cases hend : endName = name
  · subst hend
    rfl
  by_cases hε : epsilonName = name
  · subst hε
    rfl
  · simp [Alphabet.symbolOf?, alphabet, blank, hend, hε, Ne.symm hend, Ne.symm hε]

section
variable {g : Grammar} (hg : g.InStep)
include hg

theorem InStep.addNonTerminal {name : String} (hfresh : g.symbolOf? name = none) : (g.addNonTerminal name).InStep := by
  intro other
  have hunknown : g.alphabet.symbolOf? name = none := (hg name).symm.trans hfresh
  have hlists : (g.addNonTerminal name).alphabet = ⟨g.alphabet.nonTerminals ++ [name], g.alphabet.terminals⟩ := by
    simp [alphabet, Grammar.addNonTerminal]
  have hsize : g.alphabet.nonTerminals.length = g.size := List.length_map ..
  have hlookup := Alphabet.symbolOf?_addNonTerminal hunknown other
  rw [hsize, ← hg other] at hlookup
  rw [hlists, hlookup]
  exact SymbolTable.get?_insert ..

theorem InStep.addTerminal {name : String} (hfresh : g.symbolOf? name = none) : (g.addTerminal name).InStep := by
  intro other
  have hunknown : g.alphabet.symbolOf? name = none := (hg name).symm.trans hfresh
  have hlists : (g.addTerminal name).alphabet = ⟨g.alphabet.nonTerminals, g.alphabet.terminals ++ [name]⟩ := rfl
  have hlookup := Alphabet.symbolOf?_addTerminal hunknown other
  rw [← hg other] at hlookup
  rw [hlists, hlookup]
  exact SymbolTable.get?_insert ..

theorem InStep.addProduction? {h : Grammar} {i : Nat} {p : Production} (hadd : g.addProduction? i p = some h) :
    h.InStep := by
  have hnames : h.nonTerminals.map NonTerminal.name = g.nonTerminals.map NonTerminal.name := by
    refine List.ext_getElem? fun j => ?_
    have hj := congrArg (Option.map NonTerminal.name) (nonTerminal?_addProduction? hadd j)
    unfold nonTerminal? at hj
    rw [List.getElem?_map, List.getElem?_map, hj, Option.map_map]
    refine congrArg (g.nonTerminals[j]?.map ·) (funext fun a => ?_)
    by_cases e : i = j <;> simp [e, NonTerminal.addProduction]
  obtain ⟨_, _, rfl⟩ := Option.map_eq_some_iff.mp hadd
  intro name
  rw [alphabet, hnames]
  exact hg name

theorem InStep.declareLeft {h : Grammar} {r : RuleText} (hstep : g.declareLeft r = .ok h) : h.InStep := by
  unfold Grammar.declareLeft at hstep
  split at hstep
  · cases hstep
  split at hstep
  · cases hstep
    exact hg
  · cases hstep
  · cases hstep
    rename_i hfresh
    exact hg.addNonTerminal hfresh

theorem InStep.declareTerminal {h : Grammar} {name : String} (hstep : g.declareTerminal name = .ok h) : h.InStep := by
  unfold Grammar.declareTerminal at hstep
  split at hstep
  · cases hstep
  split at hstep
  · cases hstep
    exact hg
  · cases hstep
  · cases hstep
  · cases hstep
    rename_i hfresh
    exact hg.addTerminal hfresh

theorem InStep.intern? {h : Grammar} {declared : Bool} {word : String} {s : Symbol}
    (hstep : Grammar.intern? declared g word = some (h, s)) : h.InStep := by
  unfold Grammar.intern? at hstep
  split at hstep
  · cases hstep
    exact hg
  split at hstep
  · cases hstep
  · cases hstep
    rename_i hfresh _
    exact hg.addTerminal hfresh

theorem InStep.startAt {h : Grammar} {start : String} (hstep : g.startAt start = .ok h) : h.InStep := by
  unfold Grammar.startAt at hstep
  split at hstep
  · cases hstep
    exact hg
  · cases hstep

end

theorem InStep.readWord {declared : Bool} {r : RuleText} {alternative word : String} {state state' : Grammar × Production}
    (hg : state.1.InStep) (hstep : Grammar.readWord declared r alternative state word = .ok state') :
    state'.1.InStep := by
  unfold Grammar.readWord at hstep
  split at hstep
  · cases hstep
  · cases hstep
    rename_i hintern
    exact hg.intern? hintern
  · cases hstep
  · cases hstep
    rename_i hintern
    exact hg.intern? hintern

section
variable {nonTerminals : List (String × List Production)} {terminals : List String} {start : Nat} {name : String}
  (hfresh : (ofLists nonTerminals terminals start).symbolOf? name = none)
include hfresh

theorem addNonTerminal_ofLists : (ofLists nonTerminals terminals start).addNonTerminal name =
    ofLists (nonTerminals ++ [(name, [])]) terminals start := by
  refine (inStep_ofLists.addNonTerminal hfresh).ext inStep_ofLists ?_ rfl rfl
  simp [addNonTerminal, ofLists, size, List.mapIdx_append]

theorem addTerminal_ofLists : (ofLists nonTerminals terminals start).addTerminal name =
    ofLists nonTerminals (terminals ++ [name]) start :=
  (inStep_ofLists.addTerminal hfresh).ext inStep_ofLists rfl rfl rfl

end

/-! ## The whole assembly -/

theorem bind_eq_ok_iff {ε α β : Type} {x : Except ε α} {f : α → Except ε β} {b : β} :
    x.bind f = .ok b ↔ ∃ a, x = .ok a ∧ f a = .ok b := by
  cases x <;> simp [Except.bind]

theorem map_eq_ok_iff {ε α β : Type} {x : Except ε α} {f : α → β} {b : β} :
    x.map f = .ok b ↔ ∃ a, x = .ok a ∧ f a = b := by
  cases x <;> simp [Except.map]

theorem of_foldlM {σ ι ε : Type} {P : σ → Prop} {f : σ → ι → Except ε σ}
    (hstep : ∀ s x t, P s → f s x = .ok t → P t) :
    ∀ {l : List ι} {s t : σ}, P s → l.foldlM f s = .ok t → P t
  | [], _, _, hs, h => by
    cases h
    exact hs
  | x :: l, s, _, hs, h => by
    rw [List.foldlM_cons] at h
    obtain ⟨u, hu, h⟩ := bind_eq_ok_iff.mp h
    exact of_foldlM hstep (hstep s x u hs hu) h

section
variable {g h : Grammar} (hg : g.InStep) {declared : Bool} {r : RuleText}
include hg

theorem InStep.readAlternative {left : Nat} {alternative : String}
    (hstep : Grammar.readAlternative declared r left g alternative = .ok h) : h.InStep := by
  unfold Grammar.readAlternative at hstep
  obtain ⟨state, hread, rfl⟩ := map_eq_ok_iff.mp hstep
  have hstate : state.1.InStep := of_foldlM (P := fun state => state.1.InStep) (fun _ _ _ hs => hs.readWord) hg hread
  cases hadd : state.1.addProduction? left state.2 with
  | none => exact hstate
  | some h => exact hstate.addProduction? hadd

theorem InStep.readRule (hstep : Grammar.readRule declared g r = .ok h) : h.InStep := by
  unfold Grammar.readRule at hstep
  split at hstep
  · exact of_foldlM (fun _ _ _ hs => hs.readAlternative) hg hstep
  · cases hstep

end

theorem inStep_of_assemble {t : GrammarText} {g : Grammar} (h : t.assemble = .ok g) : g.InStep := by
  unfold GrammarText.assemble at h
  split at h
  · cases h
  obtain ⟨lefts, hlefts, h⟩ := bind_eq_ok_iff.mp h
  obtain ⟨declared, hdeclared, h⟩ := bind_eq_ok_iff.mp h
  obtain ⟨rules, hrules, h⟩ := bind_eq_ok_iff.mp h
  have hlefts : lefts.InStep := of_foldlM (fun _ _ _ hs => hs.declareLeft) inStep_blank hlefts
  have hdeclared : declared.InStep := of_foldlM (fun _ _ _ hs => hs.declareTerminal) hlefts hdeclared
  have hrules : rules.InStep := of_foldlM (fun _ _ _ hs => hs.readRule) hdeclared hrules
  exact hrules.startAt h

end Grammar

end Predictive
