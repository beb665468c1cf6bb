import Mathlib.Logic.Function.Basic
import Predictive.Proofs.InStep

/-!
# Reading in one go

What a name means while a grammar is assembled hangs on the names before it. But
names are only added, so a symbol once given is kept, and each step fails exactly
for the fault that its item has in the whole text. So a text is assembled to the
grammar that it reads as, or refused for the same fault.
-/

namespace Predictive

open Text

/-! ## Folds that stop at a fault -/

def faultOr {σ ε : Type} (fault : Option ε) (s : σ) : Except ε σ :=
  match fault with
  | some e => .error e
  | none => .ok s

section
variable {σ τ ι ε : Type}

theorem bind_faultOr {f : σ → Except ε τ} {fault fault' : Option ε} {s : σ} {u : τ}
    (h : fault = none → f s = faultOr fault' u) : (faultOr fault s).bind f = faultOr (fault.or fault') u := by
  cases fault with
  | none => exact h rfl
  | some e => rfl

theorem map_faultOr (f : σ → τ) (fault : Option ε) (s : σ) : (faultOr fault s).map f = faultOr fault (f s) := by
  cases fault <;> rfl

theorem mapError_faultOr {ε' : Type} (f : ε → ε') (fault : Option ε) (s : σ) :
    (faultOr fault s).mapError f = faultOr (fault.map f) s := by
  cases fault <;> rfl

/-- A fold whose state after faultless items is known ends with the first fault or in that state. -/
theorem foldlM_eq_faultOr {f : σ → ι → Except ε σ} {q : ι → Option ε} {s : List ι → σ} {l : List ι}
    (hstep : ∀ done x later, l = done ++ x :: later → f (s done) x = faultOr (q x) (s (done ++ [x]))) :
    l.foldlM f (s []) = faultOr (l.filterMap q).head? (s l) := by
  -- what is done is in the state, so the induction is on what comes later
  have key : ∀ later done, l = done ++ later → later.foldlM f (s done) = faultOr (later.filterMap q).head? (s l) := by
    intro later
    induction later with
    | nil =>
      intro done hl
      rw [hl, List.append_nil]
      rfl
    | cons x later ih =>
      intro done hl
      have hrest := ih (done ++ [x]) (by rw [hl, List.append_assoc]; rfl)
      rw [List.foldlM_cons, hstep done x later hl]
      refine Eq.trans (bind_faultOr (f := fun t => later.foldlM f t) fun _ => hrest) ?_
      cases hx : q x with
      | none => rw [List.filterMap_cons_none hx, Option.none_or]
      | some e => rw [List.filterMap_cons_some hx, List.head?_cons, Option.some_or]
  exact key l [] rfl

end

/-! ## Symbols while the terminals grow -/

namespace Alphabet

theorem symbolOf?_of_not_name {names terminals : List String} {name : String} (hε : name ≠ epsilonName)
    (hend : name ≠ endName) (hname : names.idxOf? name = none) :
    symbolOf? ⟨names, terminals⟩ name = (terminals.idxOf? name).map .terminal := by
  simp [symbolOf?, hε, hend, hname]

theorem symbolOf?_mono {names terminals later : List String} (h : terminals <+: later) {name : String} {s : Symbol}
    (hs : symbolOf? ⟨names, terminals⟩ name = some s) : symbolOf? ⟨names, later⟩ name = some s := by
  by_cases hε : name = epsilonName
  · simpa [symbolOf?, hε] using hs
  by_cases hend : name = endName
  · simpa [symbolOf?, hε, hend] using hs
  cases hname : names.idxOf? name with
  | some i => simpa [symbolOf?, hε, hend, hname] using hs
  | none =>
    obtain ⟨more, rfl⟩ := h
    rw [symbolOf?_of_not_name hε hend hname] at hs ⊢
    obtain ⟨i, hi, rfl⟩ := Option.map_eq_some_iff.mp hs
    unfold List.idxOf? at *
    rw [List.findIdx?_append, hi]
    rfl

theorem symbolOf?_of_isReserved {a : Alphabet} {name : String} (h : isReserved name = true) :
    a.symbolOf? name = some .epsilon ∨ a.symbolOf? name = some .endOfInput := by
  rcases (by simpa [isReserved] using h : name = epsilonName ∨ name = endName) with rfl | rfl
  · exact Or.inl rfl
  · exact Or.inr rfl

theorem exists_symbolOf?_nonTerminal {a : Alphabet} {name : String} (hreserved : isReserved name = false)
    (hname : name ∈ a.nonTerminals) : ∃ i, a.symbolOf? name = some (.nonTerminal i) := by
  obtain ⟨hε, hend⟩ : name ≠ epsilonName ∧ name ≠ endName := by simpa [isReserved] using hreserved
  obtain ⟨i, hi⟩ := Option.isSome_iff_exists.mp (List.isSome_idxOf?.mpr hname)
  exact ⟨i, by simp [symbolOf?, hε, hend, hi]⟩

theorem exists_symbolOf?_terminal {a : Alphabet} {name : String} (hreserved : isReserved name = false)
    (hname : name ∉ a.nonTerminals) (hterminal : name ∈ a.terminals) : ∃ i, a.symbolOf? name = some (.terminal i) := by
  obtain ⟨hε, hend⟩ : name ≠ epsilonName ∧ name ≠ endName := by simpa [isReserved] using hreserved
  obtain ⟨i, hi⟩ := Option.isSome_iff_exists.mp (List.isSome_idxOf?.mpr hterminal)
  exact ⟨i, by rw [symbolOf?_of_not_name hε hend (List.idxOf?_eq_none_iff.mpr hname), hi, Option.map_some]⟩

theorem symbolOf?_eq_none {a : Alphabet} {name : String} (hreserved : isReserved name = false)
    (hname : name ∉ a.nonTerminals) (hterminal : name ∉ a.terminals) : a.symbolOf? name = none := by
  rw [← Option.not_isSome_iff_eq_none, symbolOf?_isSome_iff]
  simp [hreserved, hname, hterminal]

end Alphabet

namespace GrammarText
variable (t : GrammarText)

/-- The terminals known when the given words have been read. -/
def terminalsAmong (words : List String) : List String :=
  distinct <|
    match t.terminals with
    | some declared => declared
    | none => words.filter fun word => !(t.names.contains word || isReserved word)

/-- The grammar when the given words have been read, and right sides for the names. -/
def grammarAmong (words : List String) (rights : String → List Production) : Grammar :=
  .ofLists (t.names.map fun name => (name, rights name)) (t.terminalsAmong words) 0

variable {t}

theorem symbolOf?_grammarAmong (words : List String) (rights : String → List Production) (name : String) :
    (t.grammarAmong words rights).symbolOf? name = Alphabet.symbolOf? ⟨t.names, t.terminalsAmong words⟩ name := by
  have hlists : (t.grammarAmong words rights).alphabet = ⟨t.names, t.terminalsAmong words⟩ := by
    rw [grammarAmong, Grammar.alphabet_ofLists, List.map_map, Function.comp_def, List.map_id']
  exact (Grammar.inStep_ofLists _).trans (congrArg (fun a => a.symbolOf? name) hlists)

theorem nonTerminal?_grammarAmong (words : List String) (rights : String → List Production) (i : Nat) :
    (t.grammarAmong words rights).nonTerminal? i = t.names[i]?.map fun name => ⟨i, name, rights name⟩ := by
  rw [grammarAmong, Grammar.nonTerminal?_ofLists, List.getElem?_map, Option.map_map]
  rfl

theorem terminalsAmong_mono {words later : List String} (h : words <+: later) :
    t.terminalsAmong words <+: t.terminalsAmong later := by
  obtain ⟨more, rfl⟩ := h
  unfold terminalsAmong
  cases t.terminals with
  | some declared => exact List.prefix_refl _
  | none =>
    simp only [List.filter_append]
    exact distinct_prefix _ _

theorem mem_terminalsAmong {words : List String} {name : String} : name ∈ t.terminalsAmong words ↔
    match t.terminals with
    | some declared => name ∈ declared
    | none => name ∈ words ∧ name ∉ t.names ∧ isReserved name = false := by
  unfold terminalsAmong
  rw [mem_distinct]
  cases t.terminals with
  | some declared => rfl
  | none => simp

theorem terminalsAmong_of_known {words : List String} {word : String} {s : Symbol}
    (h : Alphabet.symbolOf? ⟨t.names, t.terminalsAmong words⟩ word = some s) :
    t.terminalsAmong (words ++ [word]) = t.terminalsAmong words := by
  have hknown := Alphabet.symbolOf?_isSome_iff.mp (Option.isSome_iff_exists.mpr ⟨s, h⟩)
  rw [mem_terminalsAmong] at hknown
  cases ht : t.terminals with
  | some declared => simp [terminalsAmong, ht]
  | none =>
    rw [ht] at hknown
    rcases hknown with hreserved | hname | ⟨hword, hname, hreserved⟩
    · simp [terminalsAmong, ht, hreserved]
    · simp [terminalsAmong, ht, hname]
    · simp [terminalsAmong, ht, distinct_concat, hword, hname, hreserved]

theorem terminalsAmong_of_unknown {words : List String} {word : String} (ht : t.terminals = none)
    (h : Alphabet.symbolOf? ⟨t.names, t.terminalsAmong words⟩ word = none) :
    t.terminalsAmong (words ++ [word]) = t.terminalsAmong words ++ [word] := by
  have hunknown := Alphabet.symbolOf?_isSome_iff.not.mp (by rw [h]; exact Bool.false_ne_true)
  rw [mem_terminalsAmong, ht] at hunknown
  simp only [not_or, Bool.not_eq_true] at hunknown
  obtain ⟨hreserved, hname, hword⟩ := hunknown
  have hfresh : word ∉ words := fun hmem => hword ⟨hmem, hname, hreserved⟩
  simp [terminalsAmong, ht, distinct_concat, hfresh, hname, hreserved]

theorem grammarAmong_of_known {words : List String} {word : String} {s : Symbol}
    (h : Alphabet.symbolOf? ⟨t.names, t.terminalsAmong words⟩ word = some s) (rights : String → List Production) :
    t.grammarAmong (words ++ [word]) rights = t.grammarAmong words rights := by
  simp [grammarAmong, terminalsAmong_of_known h]

/-! ## Words -/

/-- The symbols of words in the whole text, ε left out. -/
def symbolsOf (t : GrammarText) (words : List String) : Production :=
  (words.filterMap t.alphabet.symbolOf?).filter fun s => s != .epsilon

theorem wordFault_eq {r : RuleText} {alternative word : String} (hword : word ∈ t.bodyTokens) :
    t.wordFault r alternative word =
      match t.alphabet.symbolOf? word with
      | none => some (.undeclaredSymbol r.name (trim alternative) word)
      | some .endOfInput => some (.reservedSymbol r.name (trim alternative) word)
      | some _ => none := by
  unfold wordFault
  by_cases hend : word = endName
  · have hsymbol : t.alphabet.symbolOf? word = some .endOfInput := by
      rw [hend]
      rfl
    rw [if_pos hend, hsymbol]
  · have hadmits := admits_iff hword hend
    rw [if_neg hend]
    cases hs : t.alphabet.symbolOf? word with
    | none => simp_all
    | some s =>
      have hne : s ≠ .endOfInput := by
        rintro rfl
        exact hend (Option.some.inj (Alphabet.nameOf?_of_symbolOf? hs)).symm
      cases s <;> simp_all

section
variable {words : List String} {word : String} (hwords : words ++ [word] <+: t.bodyTokens)
include hwords

/-- A word gets the symbol that it has in the whole text. -/
theorem intern?_grammarAmong (rights : String → List Production) :
    Grammar.intern? t.terminals.isSome (t.grammarAmong words rights) word =
      (t.alphabet.symbolOf? word).map fun s => (t.grammarAmong (words ++ [word]) rights, s) := by
  have hgrows := terminalsAmong_mono (t := t) hwords
  have hfinal : ∀ {s}, Alphabet.symbolOf? ⟨t.names, t.terminalsAmong (words ++ [word])⟩ word = some s →
      t.alphabet.symbolOf? word = some s := Alphabet.symbolOf?_mono hgrows
  have hsymbol := symbolOf?_grammarAmong (t := t) words rights word
  unfold Grammar.intern?
  rw [hsymbol]
  cases h : Alphabet.symbolOf? ⟨t.names, t.terminalsAmong words⟩ word with
  | some s =>
    rw [hfinal (by rw [terminalsAmong_of_known h, h]), grammarAmong_of_known h]
    rfl
  | none =>
    cases ht : t.terminals with
    | some declared =>
      -- no word adds a terminal, so the word is unknown in the whole text as well
      have hsame : t.alphabet = ⟨t.names, t.terminalsAmong words⟩ := by simp [alphabet, terminalsAmong, ht]
      rw [hsame, h]
      rfl
    | none =>
      have hnew := terminalsAmong_of_unknown ht h
      have hadd : (t.grammarAmong words rights).addTerminal word = t.grammarAmong (words ++ [word]) rights := by
        rw [grammarAmong, grammarAmong, hnew]
        exact Grammar.addTerminal_ofLists (hsymbol.trans h)
      rw [hfinal (by rw [hnew, Alphabet.symbolOf?_addTerminal h, if_pos rfl]), hadd]
      rfl

theorem readWord_grammarAmong (r : RuleText) (alternative : String) (rights : String → List Production)
    (p : Production) :
    Grammar.readWord t.terminals.isSome r alternative (t.grammarAmong words rights, p) word =
      faultOr (t.wordFault r alternative word) (t.grammarAmong (words ++ [word]) rights, p ++ t.symbolsOf [word]) := by
  have hword : word ∈ t.bodyTokens := hwords.subset (List.mem_append_right words List.mem_cons_self)
  unfold Grammar.readWord
  rw [intern?_grammarAmong hwords, wordFault_eq hword]
  cases hs : t.alphabet.symbolOf? word with
  | none => rfl
  | some s => cases s <;> simp [symbolsOf, hs, faultOr]

end

theorem symbolsOf_append (words later : List String) :
    t.symbolsOf (words ++ later) = t.symbolsOf words ++ t.symbolsOf later := by
  simp [symbolsOf]

/-! ## Alternatives and rules -/

theorem addProduction?_grammarAmong (hnames : t.names.Nodup) {i : Nat} {name : String} (hi : t.names[i]? = some name)
    (words : List String) (rights : String → List Production) (p : Production) :
    (t.grammarAmong words rights).addProduction? i p =
      some (t.grammarAmong words (Function.update rights name (rights name ++ [p]))) := by
  obtain ⟨h, hadd⟩ : ∃ h, (t.grammarAmong words rights).addProduction? i p = some h := by
    unfold Grammar.addProduction?
    rw [nonTerminal?_grammarAmong, hi]
    exact ⟨_, rfl⟩
  have hlists :
      h.nonTerminals = (t.grammarAmong words (Function.update rights name (rights name ++ [p]))).nonTerminals := by
    refine List.ext_getElem? fun j => ?_
    show h.nonTerminal? j = (t.grammarAmong words _).nonTerminal? j
    rw [Grammar.nonTerminal?_addProduction? hadd, nonTerminal?_grammarAmong, nonTerminal?_grammarAmong, Option.map_map]
    refine Option.map_congr fun other hj => ?_
    by_cases e : i = j
    · subst e
      rw [hi, Option.some.injEq] at hj
      simp [← hj, NonTerminal.addProduction]
    · have hne : other ≠ name := fun e' => e (Option.some.inj
        ((idxOf?_of_nodup hnames hi).symm.trans (idxOf?_of_nodup hnames (e' ▸ hj))))
      simp [e, hne]
  rw [hadd, Option.some.injEq]
  have hterminals := Grammar.terminals_addProduction? hadd
  have hstart := Grammar.start_addProduction? hadd
  exact (Grammar.inStep_ofLists.addProduction? hadd).ext Grammar.inStep_ofLists hlists hterminals hstart

section
variable (hnames : t.names.Nodup) {r : RuleText} {i : Nat} (hi : t.names[i]? = some r.name)
include hnames hi

theorem readAlternative_grammarAmong {words : List String} {alternative : String}
    (hwords : words ++ tokens alternative <+: t.bodyTokens) (rights : String → List Production) :
    Grammar.readAlternative t.terminals.isSome r i (t.grammarAmong words rights) alternative =
      faultOr ((tokens alternative).filterMap (t.wordFault r alternative)).head?
        (t.grammarAmong (words ++ tokens alternative)
          (Function.update rights r.name (rights r.name ++ [t.alphabet.production alternative]))) := by
  have hfold := foldlM_eq_faultOr (f := Grammar.readWord t.terminals.isSome r alternative)
    (q := t.wordFault r alternative) (l := tokens alternative)
    (s := fun ws => (t.grammarAmong (words ++ ws) rights, t.symbolsOf ws)) ?_
  · have hstart : t.symbolsOf [] = [] := rfl
    rw [List.append_nil, hstart] at hfold
    unfold Grammar.readAlternative
    rw [hfold, map_faultOr, addProduction?_grammarAmong hnames hi, Option.getD_some]
    rfl
  · intro done word later hitems
    have hread : words ++ done ++ [word] <+: words ++ tokens alternative := ⟨later, by simp [hitems]⟩
    rw [readWord_grammarAmong (hread.trans hwords), symbolsOf_append, List.append_assoc]

end

/-- The right sides that the given rules have for each name. -/
def rightsOf (t : GrammarText) (rules : List RuleText) (name : String) : List Production :=
  (rules.filter fun r => r.name == name).flatMap fun r => r.alternatives.map t.alphabet.production

theorem rightsOf_concat (rules : List RuleText) (r : RuleText) : t.rightsOf (rules ++ [r]) =
    Function.update (t.rightsOf rules) r.name
      (t.rightsOf rules r.name ++ r.alternatives.map t.alphabet.production) := by
  funext name
  by_cases e : name = r.name
  · subst e
    simp [rightsOf]
  · simp [rightsOf, Function.update_of_ne e, Ne.symm e]

theorem readRule_grammarAmong (hnames : t.names.Nodup) {words : List String} {r : RuleText} (hr : r ∈ t.rules)
    (hreserved : isReserved r.name = false) (hwords : words ++ r.alternatives.flatMap tokens <+: t.bodyTokens)
    (rights : String → List Production) :
    Grammar.readRule t.terminals.isSome (t.grammarAmong words rights) r =
      faultOr (t.ruleFaults r).head?
        (t.grammarAmong (words ++ r.alternatives.flatMap tokens)
          (Function.update rights r.name (rights r.name ++ r.alternatives.map t.alphabet.production))) := by
  obtain ⟨i, hsymbol⟩ := Alphabet.exists_symbolOf?_nonTerminal (a := ⟨t.names, t.terminalsAmong words⟩) hreserved
    (mem_names.mpr ⟨r, hr, rfl⟩)
  have hi : t.names[i]? = some r.name := Alphabet.nameOf?_of_symbolOf? hsymbol
  have hfold := foldlM_eq_faultOr (f := Grammar.readAlternative t.terminals.isSome r i)
    (q := fun alternative => ((tokens alternative).filterMap (t.wordFault r alternative)).head?)
    (l := r.alternatives)
    (s := fun alternatives => t.grammarAmong (words ++ alternatives.flatMap tokens)
      (Function.update rights r.name (rights r.name ++ alternatives.map t.alphabet.production))) ?_
  · unfold Grammar.readRule ruleFaults
    simp only [List.flatMap_nil, List.map_nil, List.append_nil, Function.update_eq_self] at hfold
    rw [symbolOf?_grammarAmong, hsymbol, List.head?_flatMap, ← List.head?_filterMap]
    exact hfold
  · intro done alternative later hitems
    have hread : words ++ done.flatMap tokens ++ tokens alternative <+: words ++ r.alternatives.flatMap tokens :=
      ⟨later.flatMap tokens, by simp [hitems]⟩
    rw [readAlternative_grammarAmong hnames hi (hread.trans hwords)]
    simp

theorem readRules_grammarAmong (hnames : t.names.Nodup) (hreserved : ∀ r ∈ t.rules, isReserved r.name = false) :
    t.rules.foldlM (Grammar.readRule t.terminals.isSome) (t.grammarAmong [] fun _ => []) =
      faultOr (t.rules.flatMap t.ruleFaults).head? (t.grammarAmong t.bodyTokens t.productionsOf) := by
  have hfold := foldlM_eq_faultOr (f := Grammar.readRule t.terminals.isSome)
    (q := fun r => (t.ruleFaults r).head?) (l := t.rules)
    (s := fun rules => t.grammarAmong (rules.flatMap fun r => r.alternatives.flatMap tokens) (t.rightsOf rules)) ?_
  · rw [List.head?_filterMap, ← List.head?_flatMap] at hfold
    exact hfold
  · intro done r later hitems
    have hr : r ∈ t.rules := by simp [hitems]
    have hread : (done.flatMap fun r => r.alternatives.flatMap tokens) ++ r.alternatives.flatMap tokens <+:
        t.bodyTokens := ⟨later.flatMap fun r => r.alternatives.flatMap tokens, by simp [bodyTokens, hitems]⟩
    rw [readRule_grammarAmong hnames hr (hreserved r hr) hread, rightsOf_concat]
    simp

/-! ## Declarations and the start -/

end GrammarText

/-- A grammar of names without productions. -/
def Grammar.ofNames (names terminals : List String) : Grammar := .ofLists (names.map fun name => (name, [])) terminals 0

theorem Grammar.symbolOf?_ofNames (names terminals : List String) (name : String) :
    (Grammar.ofNames names terminals).symbolOf? name = Alphabet.symbolOf? ⟨names, terminals⟩ name := by
  have hlists : (Grammar.ofNames names terminals).alphabet = ⟨names, terminals⟩ := by
    rw [ofNames, alphabet_ofLists, List.map_map, Function.comp_def, List.map_id']
  exact (inStep_ofLists _).trans (congrArg (fun a => a.symbolOf? name) hlists)

theorem Grammar.declareLeft_ofNames (names : List String) (r : RuleText) :
    Grammar.declareLeft (.ofNames (distinct names) []) r =
      faultOr (GrammarText.nameFault r) (.ofNames (distinct (names ++ [r.name])) []) := by
  have htokens : tokens r.name = tokens r.left := tokens_trim r.left
  unfold Grammar.declareLeft GrammarText.nameFault
  rw [htokens, symbolOf?_ofNames, distinct_concat]
  by_cases hlength : (tokens r.left).length ≠ 1
  · simp [hlength, faultOr]
  by_cases hreserved : isReserved r.name
  · rcases Alphabet.symbolOf?_of_isReserved (a := ⟨distinct names, []⟩) hreserved with h | h <;>
      simp [hlength, hreserved, h, faultOr]
  rw [Bool.not_eq_true] at hreserved
  by_cases hname : r.name ∈ names
  · obtain ⟨i, h⟩ := Alphabet.exists_symbolOf?_nonTerminal (a := ⟨distinct names, []⟩) hreserved (mem_distinct.mpr hname)
    simp [hlength, hreserved, h, hname, faultOr]
  · have h := Alphabet.symbolOf?_eq_none (a := ⟨distinct names, []⟩) hreserved
      (mem_distinct.not.mpr hname) List.not_mem_nil
    have hadd : (ofNames (distinct names) []).addNonTerminal r.name = ofNames (distinct names ++ [r.name]) [] := by
      rw [ofNames, addNonTerminal_ofLists ((symbolOf?_ofNames ..).trans h), ofNames, List.map_append]
      rfl
    simp [hlength, hreserved, h, hname, faultOr, hadd]

namespace GrammarText
variable {t : GrammarText}

theorem declareTerminal_ofNames (declared : List String) (name : String) :
    Grammar.declareTerminal (Grammar.ofNames t.names (distinct declared)) name =
      faultOr (t.terminalFault name) (Grammar.ofNames t.names (distinct (declared ++ [name]))) := by
  have hmalformed : (tokens name).length ≠ 1 ∨ trim name ≠ name ↔ tokens name ≠ [name] := by
    rw [← not_and_or, ← tokens_eq_self_iff]
  unfold Grammar.declareTerminal terminalFault
  simp only [hmalformed, Grammar.symbolOf?_ofNames, distinct_concat]
  by_cases htokens : tokens name = [name]
  case neg => simp [htokens, faultOr]
  by_cases hreserved : isReserved name
  · rcases Alphabet.symbolOf?_of_isReserved (a := ⟨t.names, distinct declared⟩) hreserved with h | h <;>
      simp [htokens, hreserved, h, faultOr]
  rw [Bool.not_eq_true] at hreserved
  by_cases hname : name ∈ t.names
  · obtain ⟨i, h⟩ := Alphabet.exists_symbolOf?_nonTerminal (a := ⟨t.names, distinct declared⟩) hreserved hname
    simp [htokens, hreserved, h, hname, faultOr]
  by_cases hterminal : name ∈ declared
  · obtain ⟨i, h⟩ := Alphabet.exists_symbolOf?_terminal (a := ⟨t.names, distinct declared⟩) hreserved hname
      (mem_distinct.mpr hterminal)
    simp [htokens, hreserved, h, hname, hterminal, faultOr]
  · have h := Alphabet.symbolOf?_eq_none (a := ⟨t.names, distinct declared⟩) hreserved hname
      (mem_distinct.not.mpr hterminal)
    have hadd : (Grammar.ofNames t.names (distinct declared)).addTerminal name =
        Grammar.ofNames t.names (distinct declared ++ [name]) :=
      Grammar.addTerminal_ofLists ((Grammar.symbolOf?_ofNames ..).trans h)
    simp [htokens, hreserved, h, hname, hterminal, faultOr, hadd]

theorem declareLefts : t.rules.foldlM Grammar.declareLeft (Grammar.ofNames [] []) =
    faultOr (t.rules.filterMap nameFault).head? (Grammar.ofNames t.names []) := by
  refine foldlM_eq_faultOr (s := fun rules => Grammar.ofNames (distinct (rules.map RuleText.name)) []) ?_
  intro done r _ _
  rw [Grammar.declareLeft_ofNames, List.map_append]
  rfl

theorem declareTerminals (names : List String) :
    names.foldlM Grammar.declareTerminal (Grammar.ofNames t.names []) =
      faultOr (names.filterMap t.terminalFault).head? (Grammar.ofNames t.names (distinct names)) :=
  foldlM_eq_faultOr (s := fun declared => Grammar.ofNames t.names (distinct declared))
    fun done name _ _ => declareTerminal_ofNames done name

theorem startAt_grammarAmong (hnames : t.names.Nodup) (hreserved : ∀ name ∈ t.names, isReserved name = false) :
    (t.grammarAmong t.bodyTokens t.productionsOf).startAt t.start =
      faultOr (if trim t.start ∈ t.names then [] else [GrammarError.unknownStartSymbol t.start]).head? t.grammar := by
  unfold Grammar.startAt
  rw [symbolOf?_grammarAmong]
  by_cases hstart : trim t.start ∈ t.names
  · obtain ⟨i, h⟩ := Alphabet.exists_symbolOf?_nonTerminal (a := ⟨t.names, t.terminalsAmong t.bodyTokens⟩)
      (hreserved _ hstart) hstart
    have hi : t.names.idxOf (trim t.start) = i := idxOf_of_nodup hnames (Alphabet.nameOf?_of_symbolOf? h)
    rw [h, if_pos hstart]
    simp only [List.head?_nil, faultOr, Grammar.withStart, grammar, hi]
    rfl
  · rw [if_neg hstart]
    split
    · rename_i i h
      have hi : t.names[i]? = some (trim t.start) := Alphabet.nameOf?_of_symbolOf? h
      exact absurd (List.mem_of_getElem? hi) hstart
    · rfl

theorem read_eq_faultOr : t.read = faultOr t.faults.head? t.grammar := by
  unfold read
  cases t.faults <;> rfl

/-- Reading in one go gives the same grammar as reading the whole, or the same fault. -/
theorem assemble_eq_read (t : GrammarText) : t.assemble = t.read := by
  rw [read_eq_faultOr]
  unfold assemble faults
  by_cases hempty : t.rules.isEmpty
  · simp [hempty, faultOr]
  simp only [hempty, Bool.false_eq_true, if_false, List.nil_append, List.head?_append, Option.or_assoc]
  have hnames : t.names.Nodup := nodup_distinct _
  have hstart : Grammar.blank = Grammar.ofNames [] [] :=
    Grammar.inStep_blank.ext Grammar.inStep_ofLists rfl rfl rfl
  rw [hstart, declareLefts]
  refine bind_faultOr fun hlefts => ?_
  rw [List.head?_eq_none_iff, List.filterMap_eq_nil_iff] at hlefts
  have hreserved : ∀ r ∈ t.rules, isReserved r.name = false :=
    fun r hr => (nameFault_eq_none_iff.mp (hlefts r hr)).2
  rw [declareTerminals]
  refine bind_faultOr fun _ => ?_
  -- no word has been read yet
  have hdeclared : Grammar.ofNames t.names (distinct (t.terminals.getD [])) = t.grammarAmong [] fun _ => [] := by
    cases ht : t.terminals <;> simp [Grammar.ofNames, grammarAmong, terminalsAmong, ht]
  rw [hdeclared, readRules_grammarAmong hnames hreserved]
  refine bind_faultOr fun _ => startAt_grammarAmong hnames fun name hname => ?_
  obtain ⟨r, hr, rfl⟩ := mem_names.mp hname
  exact hreserved r hr

end GrammarText

end Predictive
