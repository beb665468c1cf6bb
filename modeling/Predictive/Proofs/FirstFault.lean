import Predictive.Proofs.Assembly

/-!
# The first fault of a text

A text is read if its left sides, declared terminals, words and start are sound,
each condition being on the words of the text alone. Otherwise it is refused for
the first of them that is not, in the order of the text within each group, and
for one of a group only if all earlier groups are sound.
-/

namespace Predictive

open Text

/-! ## First members that fail -/

def FirstFailing {α : Type} (p : α → Prop) (l : List α) (a : α) : Prop :=
  ∃ before after, l = before ++ a :: after ∧ (∀ x ∈ before, p x) ∧ ¬ p a

theorem FirstFailing.fails {α : Type} {p : α → Prop} {l : List α} {a : α} (h : FirstFailing p l a) : ¬ p a := by
  obtain ⟨_, _, _, _, ha⟩ := h
  exact ha

theorem FirstFailing.ne_nil {α : Type} {p : α → Prop} {l : List α} {a : α} (h : FirstFailing p l a) : l ≠ [] := by
  obtain ⟨before, after, rfl, _⟩ := h
  simp

section
variable {α β : Type} {f : α → Option β} {p : α → Prop} (hp : ∀ a, f a = none ↔ p a) {l : List α}
include hp

theorem filterMap_eq_nil_iff_forall : l.filterMap f = [] ↔ ∀ a ∈ l, p a := by
  simp [hp]

theorem head?_filterMap_eq_some_iff {b : β} :
    (l.filterMap f).head? = some b ↔ ∃ a, FirstFailing p l a ∧ f a = some b := by
  rw [List.head?_filterMap, List.findSome?_eq_some_iff]
  constructor
  · rintro ⟨before, a, after, rfl, ha, hbefore⟩
    refine ⟨a, ⟨before, after, rfl, fun x hx => (hp x).mp (hbefore x hx), fun hpa => ?_⟩, ha⟩
    rw [(hp a).mpr hpa] at ha
    cases ha
  · rintro ⟨a, ⟨before, after, rfl, hbefore, _⟩, ha⟩
    exact ⟨before, a, after, rfl, ha, fun x hx => (hp x).mpr (hbefore x hx)⟩

end

/-! ## Sound parts of a text -/

namespace GrammarText

/-- A left side is one word and none of the two marks. -/
def NameSound (r : RuleText) : Prop := ∃ word, tokens r.left = [word] ∧ word ≠ epsilonName ∧ word ≠ endName

def IsLeft (t : GrammarText) (name : String) : Prop := ∃ r ∈ t.rules, trim r.left = name

/-- A declared terminal is one word without blanks around it, no mark and no left side. -/
def TerminalSound (t : GrammarText) (name : String) : Prop :=
  (tokens name).length = 1 ∧ trim name = name ∧ name ≠ epsilonName ∧ name ≠ endName ∧ ¬ t.IsLeft name

/-- If terminals are declared, a word is one of them, a left side or ε. -/
def WordSound (t : GrammarText) (word : String) : Prop :=
  word ≠ endName ∧ ∀ declared, t.terminals = some declared → word = epsilonName ∨ t.IsLeft word ∨ word ∈ declared

/-- A word in an alternative of a rule. -/
structure Place where
  rule : RuleText
  alternative : String
  word : String

/-- All words of all alternatives, in the order of the text. -/
def places (t : GrammarText) : List Place :=
  t.rules.flatMap fun r => r.alternatives.flatMap fun alternative => (tokens alternative).map (Place.mk r alternative)

def LeftsSound (t : GrammarText) : Prop := t.rules ≠ [] ∧ ∀ r ∈ t.rules, NameSound r

def TerminalsSound (t : GrammarText) : Prop := ∀ name ∈ t.terminals.getD [], t.TerminalSound name

def WordsSound (t : GrammarText) : Prop := ∀ x ∈ t.places, t.WordSound x.word

structure Sound (t : GrammarText) : Prop where
  lefts : t.LeftsSound
  terminals : t.TerminalsSound
  words : t.WordsSound
  start : t.IsLeft (trim t.start)

/-- What is wrong with the text first. -/
inductive FirstFault (t : GrammarText) : GrammarError → Prop
  | emptyGrammar (h : t.rules = []) : FirstFault t .emptyGrammar
  | invalidNonTerminal {r : RuleText} (h : FirstFailing NameSound t.rules r) (hr : (tokens r.left).length ≠ 1) :
    FirstFault t (.invalidNonTerminal (trim r.left))
  | reservedLeft {r : RuleText} (h : FirstFailing NameSound t.rules r) (hr : (tokens r.left).length = 1) :
    FirstFault t (.reservedName (trim r.left))
  | invalidTerminal {name : String} (hlefts : t.LeftsSound)
    (h : FirstFailing t.TerminalSound (t.terminals.getD []) name)
    (hname : (tokens name).length ≠ 1 ∨ trim name ≠ name) : FirstFault t (.invalidTerminal name)
  | reservedTerminal {name : String} (hlefts : t.LeftsSound)
    (h : FirstFailing t.TerminalSound (t.terminals.getD []) name)
    (hname : name = epsilonName ∨ name = endName) : FirstFault t (.reservedName name)
  | ambiguousSymbol {name : String} (hlefts : t.LeftsSound)
    (h : FirstFailing t.TerminalSound (t.terminals.getD []) name) (hname : t.IsLeft name) :
    FirstFault t (.ambiguousSymbol name)
  | reservedSymbol {x : Place} (hlefts : t.LeftsSound) (hterminals : t.TerminalsSound)
    (h : FirstFailing (fun x => t.WordSound x.word) t.places x) (hx : x.word = endName) :
    FirstFault t (.reservedSymbol (trim x.rule.left) (trim x.alternative) x.word)
  | undeclaredSymbol {x : Place} (hlefts : t.LeftsSound) (hterminals : t.TerminalsSound)
    (h : FirstFailing (fun x => t.WordSound x.word) t.places x) (hx : x.word ≠ endName) :
    FirstFault t (.undeclaredSymbol (trim x.rule.left) (trim x.alternative) x.word)
  | unknownStartSymbol (hlefts : t.LeftsSound) (hterminals : t.TerminalsSound) (hwords : t.WordsSound)
    (h : ¬ t.IsLeft (trim t.start)) : FirstFault t (.unknownStartSymbol t.start)

variable {t : GrammarText}

theorem isLeft_iff {name : String} : t.IsLeft name ↔ name ∈ t.names := mem_names.symm

theorem isReserved_iff {name : String} : isReserved name = true ↔ name = epsilonName ∨ name = endName := by
  simp [isReserved]

theorem nameFault_eq_none_iff_sound {r : RuleText} : nameFault r = none ↔ NameSound r := by
  rw [nameFault_eq_none_iff, List.length_eq_one_iff]
  constructor
  · rintro ⟨⟨word, hword⟩, hreserved⟩
    rw [RuleText.name, trim_of_tokens hword] at hreserved
    exact ⟨word, hword, by simpa [isReserved] using hreserved⟩
  · rintro ⟨word, hword, hne⟩
    refine ⟨⟨word, hword⟩, ?_⟩
    rw [RuleText.name, trim_of_tokens hword]
    simpa [isReserved] using hne

theorem terminalFault_eq_none_iff_sound {name : String} : t.terminalFault name = none ↔ t.TerminalSound name := by
  rw [terminalFault_eq_none_iff, tokens_eq_self_iff, TerminalSound, isLeft_iff]
  simp [isReserved, and_assoc]

theorem wordFault_eq_none_iff_sound {r : RuleText} {alternative word : String} :
    t.wordFault r alternative word = none ↔ t.WordSound word := by
  rw [wordFault_eq_none_iff, WordSound, isLeft_iff]
  cases h : t.terminals with
  | none => simp [admits, h]
  | some declared => simp [admits, h, or_assoc]

/-! ## Faults group by group -/

theorem flatMap_ruleFaults :
    t.rules.flatMap t.ruleFaults = t.places.filterMap fun x => t.wordFault x.rule x.alternative x.word := by
  simp only [places, List.filterMap_flatMap, List.filterMap_map, Function.comp_def]
  rfl

theorem filterMap_nameFault_eq_nil_iff : t.rules.filterMap nameFault = [] ↔ ∀ r ∈ t.rules, NameSound r :=
  filterMap_eq_nil_iff_forall fun _ => nameFault_eq_none_iff_sound

theorem filterMap_terminalFault_eq_nil_iff :
    (t.terminals.getD []).filterMap t.terminalFault = [] ↔ t.TerminalsSound :=
  filterMap_eq_nil_iff_forall fun _ => terminalFault_eq_none_iff_sound

theorem flatMap_ruleFaults_eq_nil_iff : t.rules.flatMap t.ruleFaults = [] ↔ t.WordsSound := by
  rw [flatMap_ruleFaults]
  exact filterMap_eq_nil_iff_forall fun _ => wordFault_eq_none_iff_sound

theorem faults_eq_nil_iff_sound : t.faults = [] ↔ t.Sound := by
  have hempty : (if t.rules.isEmpty then [GrammarError.emptyGrammar] else []) = [] ↔ t.rules ≠ [] := by simp
  have hstart : (if trim t.start ∈ t.names then [] else [GrammarError.unknownStartSymbol t.start]) = [] ↔
      t.IsLeft (trim t.start) := by simp [isLeft_iff]
  simp only [faults, List.append_eq_nil_iff, hempty, filterMap_nameFault_eq_nil_iff,
    filterMap_terminalFault_eq_nil_iff, flatMap_ruleFaults_eq_nil_iff, hstart]
  constructor
  · rintro ⟨⟨⟨⟨hrules, hnames⟩, hterminals⟩, hwords⟩, hstart⟩
    exact ⟨⟨hrules, hnames⟩, hterminals, hwords, hstart⟩
  · exact fun h => ⟨⟨⟨h.lefts, h.terminals⟩, h.words⟩, h.start⟩

theorem head?_filterMap_nameFault {e : GrammarError} : (t.rules.filterMap nameFault).head? = some e ↔
    ∃ r, FirstFailing NameSound t.rules r ∧
      ((tokens r.left).length ≠ 1 ∧ .invalidNonTerminal (trim r.left) = e ∨
        (tokens r.left).length = 1 ∧ .reservedName (trim r.left) = e) := by
  rw [head?_filterMap_eq_some_iff fun _ => nameFault_eq_none_iff_sound]
  refine exists_congr fun r => and_congr_right fun h => ?_
  have hr : nameFault r ≠ none := nameFault_eq_none_iff_sound.not.mpr h.fails
  unfold nameFault RuleText.name at *
  grind

/-- A declared terminal that is a sound left side has no other fault. -/
theorem NameSound.trim_left {r : RuleText} (h : NameSound r) :
    tokens (trim r.left) = [trim r.left] ∧ isReserved (trim r.left) = false := by
  obtain ⟨word, hword, hne⟩ := h
  rw [tokens_trim, trim_of_tokens hword, hword]
  exact ⟨rfl, by simpa [isReserved] using hne⟩

theorem head?_filterMap_terminalFault (hlefts : t.LeftsSound) {e : GrammarError} :
    ((t.terminals.getD []).filterMap t.terminalFault).head? = some e ↔
      ∃ name, FirstFailing t.TerminalSound (t.terminals.getD []) name ∧
        (((tokens name).length ≠ 1 ∨ trim name ≠ name) ∧ .invalidTerminal name = e ∨
          (name = epsilonName ∨ name = endName) ∧ .reservedName name = e ∨
          t.IsLeft name ∧ .ambiguousSymbol name = e) := by
  rw [head?_filterMap_eq_some_iff fun _ => terminalFault_eq_none_iff_sound]
  refine exists_congr fun name => and_congr_right fun h => ?_
  have hname : t.terminalFault name ≠ none := terminalFault_eq_none_iff_sound.not.mpr h.fails
  have hleft : t.IsLeft name → tokens name = [name] ∧ isReserved name = false := by
    rintro ⟨r, hr, rfl⟩
    exact (hlefts.2 r hr).trim_left
  have hmark : name = epsilonName ∨ name = endName → tokens name = [name] := by
    rintro (rfl | rfl) <;> decide
  rw [← isReserved_iff] at *
  rw [← not_and_or, ← tokens_eq_self_iff]
  rw [isLeft_iff] at *
  unfold terminalFault at *
  grind

theorem head?_flatMap_ruleFaults {e : GrammarError} : (t.rules.flatMap t.ruleFaults).head? = some e ↔
    ∃ x, FirstFailing (fun x => t.WordSound x.word) t.places x ∧
      (x.word = endName ∧ .reservedSymbol (trim x.rule.left) (trim x.alternative) x.word = e ∨
        x.word ≠ endName ∧ .undeclaredSymbol (trim x.rule.left) (trim x.alternative) x.word = e) := by
  rw [flatMap_ruleFaults, head?_filterMap_eq_some_iff fun _ => wordFault_eq_none_iff_sound]
  refine exists_congr fun x => and_congr_right fun h => ?_
  have hx : t.wordFault x.rule x.alternative x.word ≠ none := wordFault_eq_none_iff_sound.not.mpr h.fails
  unfold wordFault RuleText.name at *
  grind

theorem head?_faults {e : GrammarError} : t.faults.head? = some e ↔
    t.rules = [] ∧ .emptyGrammar = e ∨ t.rules ≠ [] ∧
      ((t.rules.filterMap nameFault).head? = some e ∨ (∀ r ∈ t.rules, NameSound r) ∧
        (((t.terminals.getD []).filterMap t.terminalFault).head? = some e ∨ t.TerminalsSound ∧
          ((t.rules.flatMap t.ruleFaults).head? = some e ∨ t.WordsSound ∧
            (¬ t.IsLeft (trim t.start) ∧ .unknownStartSymbol t.start = e)))) := by
  simp only [faults, List.head?_append, Option.or_assoc, Option.or_eq_some_iff, List.head?_eq_none_iff,
    filterMap_nameFault_eq_nil_iff, filterMap_terminalFault_eq_nil_iff, flatMap_ruleFaults_eq_nil_iff, isLeft_iff]
  by_cases hrules : t.rules = [] <;> by_cases hstart : trim t.start ∈ t.names <;> simp [hrules, hstart]

theorem head?_faults_iff_firstFault {e : GrammarError} : t.faults.head? = some e ↔ t.FirstFault e := by
  rw [head?_faults]
  constructor
  · rintro (⟨hrules, rfl⟩ | ⟨hrules, hname | ⟨hnames, h⟩⟩)
    · exact .emptyGrammar hrules
    · obtain ⟨r, hr, ⟨hlength, rfl⟩ | ⟨hlength, rfl⟩⟩ := head?_filterMap_nameFault.mp hname
      · exact .invalidNonTerminal hr hlength
      · exact .reservedLeft hr hlength
    have hlefts : t.LeftsSound := ⟨hrules, hnames⟩
    rcases h with hterminal | ⟨hterminals, hword | ⟨hwords, hstart, rfl⟩⟩
    · obtain ⟨name, hfirst, h⟩ := (head?_filterMap_terminalFault hlefts).mp hterminal
      rcases h with ⟨hname, rfl⟩ | ⟨hname, rfl⟩ | ⟨hname, rfl⟩
      · exact .invalidTerminal hlefts hfirst hname
      · exact .reservedTerminal hlefts hfirst hname
      · exact .ambiguousSymbol hlefts hfirst hname
    · obtain ⟨x, hfirst, ⟨hx, rfl⟩ | ⟨hx, rfl⟩⟩ := head?_flatMap_ruleFaults.mp hword
      · exact .reservedSymbol hlefts hterminals hfirst hx
      · exact .undeclaredSymbol hlefts hterminals hfirst hx
    · exact .unknownStartSymbol hlefts hterminals hwords hstart
  · intro h
    cases h with
    | emptyGrammar hrules => exact Or.inl ⟨hrules, rfl⟩
    | invalidNonTerminal h hr =>
      refine Or.inr ⟨h.ne_nil, Or.inl ?_⟩
      exact head?_filterMap_nameFault.mpr ⟨_, h, Or.inl ⟨hr, rfl⟩⟩
    | reservedLeft h hr =>
      refine Or.inr ⟨h.ne_nil, Or.inl ?_⟩
      exact head?_filterMap_nameFault.mpr ⟨_, h, Or.inr ⟨hr, rfl⟩⟩
    | invalidTerminal hlefts h hname =>
      refine Or.inr ⟨hlefts.1, Or.inr ⟨hlefts.2, Or.inl ?_⟩⟩
      exact (head?_filterMap_terminalFault hlefts).mpr ⟨_, h, Or.inl ⟨hname, rfl⟩⟩
    | reservedTerminal hlefts h hname =>
      refine Or.inr ⟨hlefts.1, Or.inr ⟨hlefts.2, Or.inl ?_⟩⟩
      exact (head?_filterMap_terminalFault hlefts).mpr ⟨_, h, Or.inr (Or.inl ⟨hname, rfl⟩)⟩
    | ambiguousSymbol hlefts h hname =>
      refine Or.inr ⟨hlefts.1, Or.inr ⟨hlefts.2, Or.inl ?_⟩⟩
      exact (head?_filterMap_terminalFault hlefts).mpr ⟨_, h, Or.inr (Or.inr ⟨hname, rfl⟩)⟩
    | reservedSymbol hlefts hterminals h hx =>
      refine Or.inr ⟨hlefts.1, Or.inr ⟨hlefts.2, Or.inr ⟨hterminals, Or.inl ?_⟩⟩⟩
      exact head?_flatMap_ruleFaults.mpr ⟨_, h, Or.inl ⟨hx, rfl⟩⟩
    | undeclaredSymbol hlefts hterminals h hx =>
      refine Or.inr ⟨hlefts.1, Or.inr ⟨hlefts.2, Or.inr ⟨hterminals, Or.inl ?_⟩⟩⟩
      exact head?_flatMap_ruleFaults.mpr ⟨_, h, Or.inr ⟨hx, rfl⟩⟩
    | unknownStartSymbol hlefts hterminals hwords hstart =>
      exact Or.inr ⟨hlefts.1, Or.inr ⟨hlefts.2, Or.inr ⟨hterminals, Or.inr ⟨hwords, hstart, rfl⟩⟩⟩⟩

/-- A text that is read in one go becomes a grammar if it is sound. Otherwise the
reading ends with the fault that comes first, and it ends with no other. -/
theorem assemble_ok_or_firstFault (t : GrammarText) :
    ((∃ g, t.assemble = .ok g) ↔ t.Sound) ∧ (∀ e, t.assemble = .error e ↔ t.FirstFault e) ∧ t.assemble = t.read := by
  rw [assemble_eq_read]
  refine ⟨?_, fun e => read_eq_error_iff.trans head?_faults_iff_firstFault, rfl⟩
  rw [← faults_eq_nil_iff_sound]
  constructor
  · rintro ⟨g, hg⟩
    exact (read_eq_ok_iff.mp hg).1
  · exact fun h => ⟨t.grammar, read_eq_ok_iff.mpr ⟨h, rfl⟩⟩

-- neither the undeclared `b` nor the unknown start is told
example : (⟨[⟨"A", ["b"]⟩], "C", some ["a", "A"]⟩ : GrammarText).assemble = .error (.ambiguousSymbol "A") := by
  decide +kernel

end GrammarText

end Predictive
