import Predictive.Proofs.Renaming
import Predictive.Proofs.WellFormed

/-!
# Texts with the same names

Where the names of a text are names of another one, its alphabet is renamed into
the other alphabet name by name. If the alternatives for a name can be found
again among those of the other text, each at a place of its own, the renaming
embeds the grammar of the one text in that of the other.
-/

namespace Predictive

open Text

/-- Each member of a list stands at a place of its own in the other list. -/
structure Places (f : Nat → Nat) (l l' : List String) : Prop where
  getElem? : ∀ k x, l[k]? = some x → l'[f k]? = some x
  injective : ∀ j k, j < l.length → k < l.length → f j = f k → j = k

theorem exists_places_of_perm {l l' : List String} (h : l.Perm l') : ∃ f, Places f l l' := by
  induction h with
  | nil => exact ⟨id, fun _ _ h => h, fun _ _ _ _ h => h⟩
  | @cons x l l' _ ih =>
    obtain ⟨f, hf, hinj⟩ := ih
    refine ⟨fun k => k.casesOn 0 fun k => f k + 1, fun k y hy => ?_, fun j k hj hk e => ?_⟩
    · cases k with
      | zero => exact hy
      | succ k => exact hf k y hy
    · cases j with
      | zero =>
        cases k with
        | zero => rfl
        | succ k => cases e
      | succ j =>
        cases k with
        | zero => cases e
        | succ k =>
          have hjk : j = k := hinj j k (Nat.lt_of_succ_lt_succ hj) (Nat.lt_of_succ_lt_succ hk) (Nat.succ.inj e)
          rw [hjk]
  | swap x y l =>
    refine ⟨fun k => if k = 0 then 1 else if k = 1 then 0 else k, fun k z hz => ?_, fun j k hj hk e => by grind⟩
    match k, hz with
    | 0, hz => exact hz
    | 1, hz => exact hz
    | k + 2, hz => simpa using hz
  | trans _ _ ih ih' =>
    obtain ⟨f, hf, hinj⟩ := ih
    obtain ⟨f', hf', hinj'⟩ := ih'
    refine ⟨f' ∘ f, fun k x hx => hf' _ x (hf k x hx), fun j k hj hk e => ?_⟩
    have hlt : ∀ {k}, k < _ → f k < _ := fun {k} hk =>
      (List.getElem?_eq_some_iff.mp (hf k _ (List.getElem?_eq_getElem hk))).1
    exact hinj j k hj hk (hinj' _ _ (hlt hj) (hlt hk) e)

namespace Alphabet

/-- Each name gets its number in the other alphabet, and productions are numbered by name. -/
def renumbering (a b : Alphabet) (f : String → Nat → Nat) : Renaming where
  terminal i := b.terminals.idxOf (a.terminals.getD i "")
  nonTerminal i := b.nonTerminals.idxOf (a.nonTerminals.getD i "")
  production i := f (a.nonTerminals.getD i "")

variable {a b : Alphabet} {f : String → Nat → Nat}

theorem nonTerminal_renumbering {i : Nat} {name : String} (hi : a.nonTerminals[i]? = some name) :
    (a.renumbering b f).nonTerminal i = b.nonTerminals.idxOf name := by
  simp [renumbering, List.getD_eq_getElem?_getD, hi]

theorem terminal_renumbering {i : Nat} {name : String} (hi : a.terminals[i]? = some name) :
    (a.renumbering b f).terminal i = b.terminals.idxOf name := by
  simp [renumbering, List.getD_eq_getElem?_getD, hi]

theorem production_renumbering {i : Nat} {name : String} (hi : a.nonTerminals[i]? = some name) :
    (a.renumbering b f).production i = f name := by
  simp [renumbering, List.getD_eq_getElem?_getD, hi]

theorem symbol_nonTerminal_renumbering {i : Nat} {name : String} (hi : a.nonTerminals[i]? = some name) :
    (a.renumbering b f).symbol (.nonTerminal i) = .nonTerminal (b.nonTerminals.idxOf name) :=
  congrArg Symbol.nonTerminal (nonTerminal_renumbering hi)

theorem symbol_terminal_renumbering {i : Nat} {name : String} (hi : a.terminals[i]? = some name) :
    (a.renumbering b f).symbol (.terminal i) = .terminal (b.terminals.idxOf name) :=
  congrArg Symbol.terminal (terminal_renumbering hi)

theorem nameOf?_renumbering (hnames : a.nonTerminals ⊆ b.nonTerminals) {s : Symbol} {name : String}
    (hs : a.nameOf? s = some name) (hterminals : name ∈ a.terminals → name ∈ b.terminals) :
    b.nameOf? ((a.renumbering b f).symbol s) = some name := by
  cases s with
  | epsilon => exact hs
  | endOfInput => exact hs
  | nonTerminal i =>
    have hname : name ∈ b.nonTerminals := hnames (List.mem_of_getElem? hs)
    rw [symbol_nonTerminal_renumbering hs]
    exact List.getElem?_idxOf hname
  | terminal i =>
    have hname : name ∈ b.terminals := hterminals (List.mem_of_getElem? hs)
    rw [symbol_terminal_renumbering hs]
    exact List.getElem?_idxOf hname

/-- The new number of a name has that name or, where the other alphabet lacks it, none. -/
theorem nameOf?_renumbering_of_isSome {s : Symbol} {name : String} (hs : a.nameOf? s = some name)
    (h : (b.nameOf? ((a.renumbering b f).symbol s)).isSome = true) :
    b.nameOf? ((a.renumbering b f).symbol s) = some name := by
  cases s with
  | epsilon => exact hs
  | endOfInput => exact hs
  | nonTerminal i =>
    rw [symbol_nonTerminal_renumbering hs] at h ⊢
    have hlt : b.nonTerminals.idxOf name < b.nonTerminals.length := by simpa [nameOf?] using h
    exact List.getElem?_idxOf (List.idxOf_lt_length_iff.mp hlt)
  | terminal i =>
    rw [symbol_terminal_renumbering hs] at h ⊢
    have hlt : b.terminals.idxOf name < b.terminals.length := by simpa [nameOf?] using h
    exact List.getElem?_idxOf (List.idxOf_lt_length_iff.mp hlt)

end Alphabet

namespace GrammarText

def alternativesOf (t : GrammarText) (name : String) : List String :=
  (t.rules.filter fun r => r.name == name).flatMap RuleText.alternatives

theorem productionsOf_eq (t : GrammarText) (name : String) :
    t.productionsOf name = (t.alternativesOf name).map t.alphabet.production := by
  rw [productionsOf, alternativesOf, List.map_flatMap]

theorem mem_alternativesOf {t : GrammarText} {name alternative : String} :
    alternative ∈ t.alternativesOf name ↔ ∃ r ∈ t.rules, r.name = name ∧ alternative ∈ r.alternatives := by
  simp [alternativesOf, and_assoc]

theorem mem_rules_grammar {t : GrammarText} {r : Rule} : r ∈ t.grammar.rules ↔
    ∃ name, t.names[r.left]? = some name ∧ ∃ alternative, (t.alternativesOf name)[r.index]? = some alternative ∧
      t.alphabet.production alternative = r.right := by
  rw [Grammar.mem_rules, Grammar.production?, nonTerminal?_grammar]
  simp [Option.bind_eq_some_iff, productionsOf_eq]

theorem keepsNames {t t' : GrammarText} {f : String → Nat → Nat} (hnames : t.names ⊆ t'.names)
    (hterminals : t.alphabet.terminals ⊆ t'.alphabet.terminals) :
    (t.alphabet.renumbering t'.alphabet f).KeepsNames t.grammar t'.grammar := by
  intro s name hs
  rw [Grammar.nameOf?, alphabet_grammar] at hs ⊢
  exact Alphabet.nameOf?_renumbering hnames hs fun hname => hterminals hname

section
variable {t t' : GrammarText} (ht : t.faults = []) (ht' : t'.faults = []) (hnames : t.names ⊆ t'.names)
  (hterminals : ∀ word ∈ t.bodyTokens, word ∈ t.alphabet.terminals → word ∈ t'.alphabet.terminals)
  {f : String → Nat → Nat}
include ht ht' hnames hterminals

theorem production_eq_map {name alternative : String} (ha : alternative ∈ t.alternativesOf name) :
    t'.alphabet.production alternative =
      (t.alphabet.production alternative).map (t.alphabet.renumbering t'.alphabet f).symbol := by
  obtain ⟨r, hr, _, ha⟩ := mem_alternativesOf.mp ha
  have hword : ∀ word ∈ tokens alternative, t'.alphabet.symbolOf? word =
      (t.alphabet.symbolOf? word).map (t.alphabet.renumbering t'.alphabet f).symbol := by
    intro word hword
    obtain ⟨s, hs⟩ := exists_symbolOf? ht hr ha hword
    have hname := Alphabet.nameOf?_renumbering (f := f) hnames (Alphabet.nameOf?_of_symbolOf? hs)
      (hterminals word (mem_bodyTokens.mpr ⟨r, hr, alternative, ha, hword⟩))
    rw [hs, (proper_alphabet ht').symbolOf?_of_nameOf? hname, Option.map_some]
  have hε : ∀ s, ((t.alphabet.renumbering t'.alphabet f).symbol s != .epsilon) = (s != .epsilon) := by
    intro s
    simp [bne, Bool.beq_eq_decide_eq]
  unfold Alphabet.production
  rw [List.filterMap_congr hword, ← List.map_filterMap, List.filter_map]
  simp only [Function.comp_def, hε]

theorem embeds (hstart : t.start = t'.start)
    (hf : ∀ name, Places (f name) (t.alternativesOf name) (t'.alternativesOf name)) :
    (t.alphabet.renumbering t'.alphabet f).Embeds t.grammar t'.grammar where
  start := by
    have hmem : trim t.start ∈ t.names := (faults_eq_nil_iff.mp ht).start
    have hname : t.alphabet.nonTerminals[t.grammar.start]? = some (trim t.start) := List.getElem?_idxOf hmem
    rw [Alphabet.nonTerminal_renumbering hname, hstart]
    rfl
  rules r hr := by
    obtain ⟨name, hname, alternative, ha, hright⟩ := mem_rules_grammar.mp hr
    refine mem_rules_grammar.mpr ⟨name, ?_, alternative, ?_, ?_⟩
    · show t'.names[(t.alphabet.renumbering t'.alphabet f).nonTerminal r.left]? = some name
      rw [Alphabet.nonTerminal_renumbering hname]
      exact List.getElem?_idxOf (hnames (List.mem_of_getElem? hname))
    · show (t'.alternativesOf name)[(t.alphabet.renumbering t'.alphabet f).production r.left r.index]? =
        some alternative
      rw [Alphabet.production_renumbering hname]
      exact (hf name).getElem? _ _ ha
    · rw [production_eq_map (f := f) ht ht' hnames hterminals (List.mem_of_getElem? ha), hright]
      rfl
  production_injective r hr s hs hleft e := by
    obtain ⟨name, hname, _, ha, _⟩ := mem_rules_grammar.mp hr
    obtain ⟨name', hname', _, ha', _⟩ := mem_rules_grammar.mp hs
    rw [← hleft, hname, Option.some.injEq] at hname'
    subst hname'
    rw [Alphabet.production_renumbering hname] at e
    exact (hf name).injective _ _ (List.getElem?_eq_some_iff.mp ha).1 (List.getElem?_eq_some_iff.mp ha').1 e

end

end GrammarText

end Predictive
