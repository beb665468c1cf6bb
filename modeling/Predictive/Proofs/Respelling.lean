import Mathlib.Logic.Relation
import Predictive.Proofs.Assembly

/-!
# Spellings of a text

Blanks are a matter of spelling, as are the words ε and whether alternatives of a
left side stand in one rule or in several that follow each other. What is left of
a text without them is its content. Texts of one content have the same grammar,
or are refused for the same fault, although a fault quotes the start and an
alternative as they are spelled.
-/

namespace Predictive

open Text

/-! ## Changes of the spelling -/

/-- The words of an alternative that stand for something. -/
def contentWords (alternative : String) : List String :=
  (tokens alternative).filter fun word => word != epsilonName

/-- One rule is spelled as one or two. -/
inductive RuleText.Respelled : RuleText → List RuleText → Prop
  | left {left left' : String} {alternatives : List String} (h : Padded left left') :
    Respelled ⟨left, alternatives⟩ [⟨left', alternatives⟩]
  | alternative (before after : List String) {left alternative alternative' : String}
    (h : contentWords alternative = contentWords alternative') :
    Respelled ⟨left, before ++ alternative :: after⟩ [⟨left, before ++ alternative' :: after⟩]
  | split (before after : List String) {left : String} :
    Respelled ⟨left, before ++ after⟩ [⟨left, before⟩, ⟨left, after⟩]

/-- One change of the spelling. -/
inductive GrammarText.Respelled : GrammarText → GrammarText → Prop
  | start {rules : List RuleText} {start start' : String} {terminals : Option (List String)} (h : Padded start start') :
    Respelled ⟨rules, start, terminals⟩ ⟨rules, start', terminals⟩
  | rule (before after : List RuleText) {r : RuleText} {rules : List RuleText} {start : String}
    {terminals : Option (List String)} (h : r.Respelled rules) :
    Respelled ⟨before ++ r :: after, start, terminals⟩ ⟨before ++ rules ++ after, start, terminals⟩

/-- The fault without what it quotes of the spelling. -/
def GrammarError.offence : GrammarError → GrammarError
  | .reservedSymbol nonTerminal _ symbol => .reservedSymbol nonTerminal "" symbol
  | .undeclaredSymbol nonTerminal _ symbol => .undeclaredSymbol nonTerminal "" symbol
  | .unknownStartSymbol name => .unknownStartSymbol (trim name)
  | e => e

/-! ## Content -/

/-- Every alternative, in the order of the text, as the words that it has for its left side. -/
def RuleText.clauses (r : RuleText) : List (String × List String) :=
  r.alternatives.map fun alternative => (r.name, contentWords alternative)

namespace GrammarText

-- a left side without alternatives has no clause, so the names are content of their own
structure Content where
  names : List String
  clauses : List (String × List String)
  start : String
  terminals : Option (List String)

def content (t : GrammarText) : Content := ⟨t.names, t.rules.flatMap RuleText.clauses, trim t.start, t.terminals⟩

end GrammarText

theorem filterMap_filter_ne {β : Type} {f : String → Option β} {name : String} (hf : f name = none) (l : List String) :
    (l.filter fun word => word != name).filterMap f = l.filterMap f := by
  rw [List.filterMap_filter]
  refine List.filterMap_congr fun word _ => ?_
  by_cases e : word = name
  · simp [e, hf]
  · simp [e]

theorem distinct_repeated (before after : List String) (name : String) :
    distinct (before ++ name :: name :: after) = distinct (before ++ name :: after) := by
  induction before with
  | nil => simp [distinct]
  | cons n before ih => rw [List.cons_append, List.cons_append, distinct, distinct, ih]

namespace RuleText.Respelled
variable {r : RuleText} {rules : List RuleText} (h : r.Respelled rules)
include h

theorem map_name : rules.map RuleText.name = [r.name] ∨ rules.map RuleText.name = [r.name, r.name] := by
  cases h with
  | left h => exact Or.inl (congrArg (fun name => [name]) h.trim_eq)
  | alternative => exact Or.inl rfl
  | split => exact Or.inr rfl

theorem flatMap_clauses : rules.flatMap RuleText.clauses = r.clauses := by
  cases h with
  | left h => simp [clauses, name, h.trim_eq]
  | alternative _ _ h => simp [clauses, name, h]
  | split => simp [clauses, name]

end RuleText.Respelled

namespace GrammarText

theorem Respelled.content_eq {t u : GrammarText} (h : t.Respelled u) : t.content = u.content := by
  cases h with
  | start h => simp only [content, names, h.trim_eq]
  | @rule before after r rules _ _ h =>
    have hnames : distinct ((before ++ r :: after).map RuleText.name) =
        distinct ((before ++ rules ++ after).map RuleText.name) := by
      simp only [List.map_append, List.map_cons]
      rcases h.map_name with e | e
      · rw [e, List.append_assoc]
        rfl
      · rw [e, List.append_assoc]
        exact (distinct_repeated _ _ _).symm
    simp only [content, names, hnames, List.flatMap_append, List.flatMap_cons, h.flatMap_clauses, List.append_assoc]

/-! ## What the content tells -/

def leftFault (name : String) : Option GrammarError :=
  if (tokens name).length ≠ 1 then some (.invalidNonTerminal name)
  else if isReserved name then some (.reservedName name)
  else none

theorem nameFault_eq (r : RuleText) : nameFault r = leftFault r.name := by
  unfold nameFault leftFault RuleText.name
  rw [tokens_trim]

/-- A name that comes back is refused where it comes first. -/
theorem head?_filterMap_distinct (f : String → Option GrammarError) (names : List String) :
    ((distinct names).filterMap f).head? = (names.filterMap f).head? := by
  induction names with
  | nil => rfl
  | cons name names ih =>
    cases hf : f name with
    | some e => rw [distinct, List.filterMap_cons_some hf, List.filterMap_cons_some hf, List.head?_cons, List.head?_cons]
    | none => rw [distinct, List.filterMap_cons_none hf, List.filterMap_cons_none hf, filterMap_filter_ne hf, ih]

theorem head?_nameFaults (t : GrammarText) : (t.rules.filterMap nameFault).head? = (t.names.filterMap leftFault).head? := by
  rw [names, head?_filterMap_distinct, List.filterMap_map]
  simp only [Function.comp_def, ← nameFault_eq]

theorem rules_isEmpty (t : GrammarText) : t.rules.isEmpty = t.names.isEmpty := by
  unfold names
  cases t.rules with
  | nil => rfl
  | cons r rules => rw [List.map_cons, distinct, List.isEmpty_cons, List.isEmpty_cons]

theorem filter_bodyTokens (t : GrammarText) {p : String → Bool} (hp : p epsilonName = false) :
    t.bodyTokens.filter p = ((t.rules.flatMap RuleText.clauses).flatMap Prod.snd).filter p := by
  have hwords : ∀ alternative, (tokens alternative).filter p = (contentWords alternative).filter p := by
    intro alternative
    rw [← List.filterMap_eq_filter, contentWords, filterMap_filter_ne (by simp [Option.guard, hp])]
  unfold bodyTokens RuleText.clauses
  simp only [List.filter_flatMap, List.flatMap_assoc, List.flatMap_map, hwords]

end GrammarText

theorem Alphabet.production_eq (a : Alphabet) (alternative : String) :
    a.production alternative = (contentWords alternative).filterMap a.symbolOf? := by
  have hε : ((a.symbolOf? epsilonName).filter fun s => s != .epsilon) = none := rfl
  rw [production, contentWords, List.filter_filterMap, ← filterMap_filter_ne hε]
  refine List.filterMap_congr fun word hword => ?_
  have hne : word ≠ epsilonName := by simpa using (List.mem_filter.mp hword).2
  cases hs : a.symbolOf? word with
  | none => rfl
  | some s =>
    have hs' : s ≠ .epsilon := by
      intro e
      subst e
      exact hne (Option.some.inj (nameOf?_of_symbolOf? hs)).symm
    simp [hs']

namespace GrammarText

theorem productionsOf_eq_clauses (t : GrammarText) (name : String) : t.productionsOf name =
    ((t.rules.flatMap RuleText.clauses).filter fun c => c.1 == name).map fun c => c.2.filterMap t.alphabet.symbolOf? := by
  unfold productionsOf
  induction t.rules with
  | nil => rfl
  | cons r rules ih =>
    have hclauses : (r.clauses.filter fun c => c.1 == name) = if r.name == name then r.clauses else [] := by
      unfold RuleText.clauses
      split
      · rename_i hname
        simp [List.filter_map, Function.comp_def, hname]
      · rename_i hname
        simp [List.filter_map, Function.comp_def, hname]
    rw [List.flatMap_cons, List.filter_append, List.map_append, ← ih, hclauses, List.filter_cons]
    split
    · simp [RuleText.clauses, Function.comp_def, Alphabet.production_eq]
    · simp

def wordOffence (t : GrammarText) (name word : String) : Option GrammarError :=
  if word = endName then some (.reservedSymbol name "" word)
  else if t.admits word then none
  else some (.undeclaredSymbol name "" word)

theorem map_offence_wordFault (t : GrammarText) (r : RuleText) (alternative word : String) :
    (t.wordFault r alternative word).map GrammarError.offence = t.wordOffence r.name word := by
  unfold wordFault wordOffence
  split
  · rfl
  · split
    · rfl
    · rfl

theorem wordOffence_epsilon (t : GrammarText) (name : String) : t.wordOffence name epsilonName = none := by
  have hadmits : t.admits epsilonName = true := by
    unfold admits
    split <;> simp
  have hne : epsilonName ≠ endName := by decide
  simp [wordOffence, hne, hadmits]

theorem map_offence_ruleFaults (t : GrammarText) : (t.rules.flatMap t.ruleFaults).map GrammarError.offence =
    (t.rules.flatMap RuleText.clauses).flatMap fun c => c.2.filterMap (t.wordOffence c.1) := by
  have hwords : ∀ name alternative, (contentWords alternative).filterMap (t.wordOffence name) =
      (tokens alternative).filterMap (t.wordOffence name) :=
    fun name _ => filterMap_filter_ne (t.wordOffence_epsilon name) _
  unfold ruleFaults RuleText.clauses
  simp only [List.map_flatMap, List.map_filterMap, List.flatMap_assoc, List.flatMap_map, map_offence_wordFault, hwords]

/-! ## Texts of one content -/

section
variable {t u : GrammarText} (h : t.content = u.content)
include h

theorem names_eq_of_content : t.names = u.names := congrArg Content.names h

theorem clauses_eq_of_content : t.rules.flatMap RuleText.clauses = u.rules.flatMap RuleText.clauses :=
  congrArg Content.clauses h

theorem start_eq_of_content : trim t.start = trim u.start := congrArg Content.start h

theorem terminals_eq_of_content : t.terminals = u.terminals := congrArg Content.terminals h

theorem alphabet_eq_of_content : t.alphabet = u.alphabet := by
  have hp : ∀ names : List String, (!(names.contains epsilonName || isReserved epsilonName)) = false := by
    simp [isReserved]
  unfold alphabet
  rw [t.filter_bodyTokens (hp _), u.filter_bodyTokens (hp _), clauses_eq_of_content h, names_eq_of_content h,
    terminals_eq_of_content h]

theorem grammar_eq_of_content : t.grammar = u.grammar := by
  unfold grammar
  simp only [productionsOf_eq_clauses, clauses_eq_of_content h, alphabet_eq_of_content h, names_eq_of_content h,
    start_eq_of_content h]

theorem wordOffence_eq_of_content : t.wordOffence = u.wordOffence := by
  unfold wordOffence admits
  rw [names_eq_of_content h, terminals_eq_of_content h]

theorem terminalFault_eq_of_content : t.terminalFault = u.terminalFault := by
  unfold terminalFault
  rw [names_eq_of_content h]

theorem head?_map_offence_faults :
    t.faults.head?.map GrammarError.offence = u.faults.head?.map GrammarError.offence := by
  have hstart : ((if trim t.start ∈ t.names then [] else [GrammarError.unknownStartSymbol t.start]).map
      GrammarError.offence) = (if trim u.start ∈ u.names then [] else [.unknownStartSymbol u.start]).map
      GrammarError.offence := by
    rw [names_eq_of_content h, start_eq_of_content h]
    split
    · rfl
    · simp [GrammarError.offence, start_eq_of_content h]
  unfold faults
  simp only [List.head?_append, Option.map_or, ← List.head?_map, map_offence_ruleFaults, hstart]
  simp only [List.head?_map, head?_nameFaults, rules_isEmpty, names_eq_of_content h, clauses_eq_of_content h,
    terminals_eq_of_content h, wordOffence_eq_of_content h, terminalFault_eq_of_content h]

theorem mapError_read_eq_of_content :
    t.read.mapError GrammarError.offence = u.read.mapError GrammarError.offence := by
  rw [read_eq_faultOr, read_eq_faultOr, mapError_faultOr, mapError_faultOr, head?_map_offence_faults h,
    grammar_eq_of_content h]

end

/-- However a text is spelled, its grammar is the same, or the fault that it is refused for is the same but for what
it quotes of the spelling. -/
theorem read_of_respelled {t u : GrammarText} (h : Relation.EqvGen Respelled t u) :
    t.read.mapError GrammarError.offence = u.read.mapError GrammarError.offence ∧
      t.assemble.mapError GrammarError.offence = u.assemble.mapError GrammarError.offence := by
  have hcontent : t.content = u.content := by
    induction h with
    | rel _ _ h => exact h.content_eq
    | refl => rfl
    | symm _ _ _ ih => exact ih.symm
    | trans _ _ _ _ _ ih ih' => exact ih.trans ih'
  rw [assemble_eq_read, assemble_eq_read]
  exact ⟨mapError_read_eq_of_content hcontent, mapError_read_eq_of_content hcontent⟩

def plainText : GrammarText := ⟨[⟨"S", ["a S", "ε"]⟩], "S", none⟩

/-- `plainText` with its rule cut in two, blanks of other kinds, and one ε more. -/
def spreadText : GrammarText := ⟨[⟨"\u2003S", ["a\u3000S ε"]⟩, ⟨"S", ["ε"]⟩], "S\n", none⟩

theorem read_of_respelled_spread : Relation.EqvGen Respelled plainText spreadText ∧
    ∃ g, plainText.read = .ok g ∧ spreadText.read = .ok g := by
  have hend : Padded "S" "S\n" := ⟨[], ['\n'], List.forall_mem_nil _, List.forall_mem_singleton.mpr rfl, rfl⟩
  have hfront : Padded "S" "\u2003S" := ⟨['\u2003'], [], List.forall_mem_singleton.mpr rfl, List.forall_mem_nil _, rfl⟩
  have hwords : contentWords "a S" = contentWords "a\u3000S ε" := by decide +kernel
  have hstart : Respelled plainText { plainText with start := "S\n" } := .start hend
  have hsplit : Respelled { plainText with start := "S\n" } ⟨[⟨"S", ["a S"]⟩, ⟨"S", ["ε"]⟩], "S\n", none⟩ :=
    .rule [] [] (.split ["a S"] ["ε"])
  have halternative : Respelled ⟨[⟨"S", ["a S"]⟩, ⟨"S", ["ε"]⟩], "S\n", none⟩
      ⟨[⟨"S", ["a\u3000S ε"]⟩, ⟨"S", ["ε"]⟩], "S\n", none⟩ := .rule [] [⟨"S", ["ε"]⟩] (.alternative [] [] hwords)
  have hleft : Respelled ⟨[⟨"S", ["a\u3000S ε"]⟩, ⟨"S", ["ε"]⟩], "S\n", none⟩ spreadText :=
    .rule [] [⟨"S", ["ε"]⟩] (.left hfront)
  have h : Relation.EqvGen Respelled plainText spreadText :=
    (((Relation.EqvGen.rel _ _ hstart).trans _ _ _ (.rel _ _ hsplit)).trans _ _ _ (.rel _ _ halternative)).trans _ _ _
      (.rel _ _ hleft)
  obtain ⟨hread, _⟩ := read_of_respelled h
  have hplain : plainText.read = .ok plainText.grammar := read_eq_ok_iff.mpr ⟨by decide +kernel, rfl⟩
  rw [hplain] at hread
  cases hspread : spreadText.read with
  | error e =>
    rw [hspread] at hread
    cases hread
  | ok g =>
    rw [hspread] at hread
    cases Except.ok.inj hread
    exact ⟨h, _, hplain, rfl⟩

end GrammarText

end Predictive
