import Predictive.Grammar.Text
import Predictive.Proofs.Rounds
import Predictive.Table.Build

/-!
# ε inside productions

A text never puts ε into a production, an edit may. Every loop of the analysis
passes over it, so a grammar has the sets and tables that it has without ε, pass by
pass, and also where numbers are out of range. Only the bounds on the passes are
lower without ε, and the lower ones have room enough.
-/

namespace Predictive

/-! ## Deletion -/

namespace Production

def withoutEpsilon (p : Production) : Production := p.filter fun s => s != .epsilon

variable {i : Nat} {p : Production}

@[simp] theorem withoutEpsilon_nil : withoutEpsilon [] = [] := rfl

@[simp] theorem withoutEpsilon_epsilon : withoutEpsilon (.epsilon :: p) = p.withoutEpsilon := rfl

@[simp] theorem withoutEpsilon_terminal : withoutEpsilon (.terminal i :: p) = .terminal i :: p.withoutEpsilon := rfl

@[simp] theorem withoutEpsilon_nonTerminal :
    withoutEpsilon (.nonTerminal i :: p) = .nonTerminal i :: p.withoutEpsilon := rfl

@[simp] theorem withoutEpsilon_endOfInput : withoutEpsilon (.endOfInput :: p) = .endOfInput :: p.withoutEpsilon := rfl

end Production

def Rule.withoutEpsilon (r : Rule) : Rule := { r with right := r.right.withoutEpsilon }

def Occurrence.withoutEpsilon (o : Occurrence) : Occurrence := { o with rest := o.rest.withoutEpsilon }

def NonTerminal.withoutEpsilon (a : NonTerminal) : NonTerminal :=
  { a with productions := a.productions.map Production.withoutEpsilon }

def Grammar.withoutEpsilon (g : Grammar) : Grammar :=
  { g with
    nonTerminals := g.nonTerminals.map NonTerminal.withoutEpsilon
    indexed := g.indexed.map fun _ => rfl }

theorem Production.occurrences_withoutEpsilon (left : Nat) : ∀ p : Production,
    p.withoutEpsilon.occurrences left = (p.occurrences left).map Occurrence.withoutEpsilon
  | [] => rfl
  | .nonTerminal _ :: p => congrArg (List.cons _) (occurrences_withoutEpsilon left p)
  | .epsilon :: p | .terminal _ :: p | .endOfInput :: p => occurrences_withoutEpsilon left p

namespace Grammar
variable (g : Grammar)

@[simp] theorem size_withoutEpsilon : g.withoutEpsilon.size = g.size := List.length_map _

theorem rules_withoutEpsilon : g.withoutEpsilon.rules = g.rules.map Rule.withoutEpsilon := by
  simp [rules, withoutEpsilon, List.zipIdx_map, List.flatMap_map, List.map_flatMap, NonTerminal.withoutEpsilon,
    Rule.withoutEpsilon, Function.comp_def]

theorem occurrences_withoutEpsilon : g.withoutEpsilon.occurrences = g.occurrences.map Occurrence.withoutEpsilon := by
  unfold occurrences
  rw [rules_withoutEpsilon, List.flatMap_map, List.map_flatMap]
  exact List.flatMap_congr fun r _ => r.right.occurrences_withoutEpsilon r.left

theorem bodySize_withoutEpsilon_le : g.withoutEpsilon.bodySize ≤ g.bodySize := by
  have hbodies : g.withoutEpsilon.rules.flatMap Rule.right = Production.withoutEpsilon (g.rules.flatMap Rule.right) := by
    rw [rules_withoutEpsilon, List.flatMap_map, Production.withoutEpsilon, List.filter_flatMap]
    rfl
  unfold bodySize
  rw [hbodies]
  exact List.length_filter_le _ _

end Grammar

/-! ## One look at a production -/

theorem SetFamily.firstOfSequence?_withoutEpsilon (first : SetFamily) : ∀ p : Production,
    first.firstOfSequence? p.withoutEpsilon = first.firstOfSequence? p
  | [] | .terminal _ :: _ | .endOfInput :: _ => rfl
  | .epsilon :: p => first.firstOfSequence?_withoutEpsilon p
  | .nonTerminal i :: p => by
    simp only [Production.withoutEpsilon_nonTerminal, firstOfSequence?, first.firstOfSequence?_withoutEpsilon p]

theorem vanishes?_withoutEpsilon (known : List Bool) : ∀ p : Production,
    vanishes? known p.withoutEpsilon = vanishes? known p
  | [] | .terminal _ :: _ | .endOfInput :: _ => rfl
  | .epsilon :: p => vanishes?_withoutEpsilon known p
  | .nonTerminal i :: p => by
    simp only [Production.withoutEpsilon_nonTerminal, vanishes?, vanishes?_withoutEpsilon known p]

theorem anyVanishes?_withoutEpsilon (known : List Bool) : ∀ ps : List Production,
    anyVanishes? known (ps.map Production.withoutEpsilon) = anyVanishes? known ps
  | [] => rfl
  | p :: ps => by
    simp only [List.map_cons, anyVanishes?, vanishes?_withoutEpsilon, anyVanishes?_withoutEpsilon known ps]

namespace Grammar

theorem nullableStep?_withoutEpsilon (known : List Bool) (a : NonTerminal) :
    nullableStep? known a.withoutEpsilon = nullableStep? known a := by
  unfold nullableStep?
  rw [NonTerminal.withoutEpsilon, anyVanishes?_withoutEpsilon]

theorem nullableReport?_withoutEpsilon (known : List Bool) (a : NonTerminal) :
    nullableReport? known a.withoutEpsilon = nullableReport? known a := by
  unfold nullableReport?
  rw [NonTerminal.withoutEpsilon, anyVanishes?_withoutEpsilon]

theorem firstReport?_withoutEpsilon (first : SetFamily) (r : Rule) :
    firstReport? first r.withoutEpsilon = firstReport? first r := by
  unfold firstReport?
  rw [Rule.withoutEpsilon, first.firstOfSequence?_withoutEpsilon]

theorem followStep?_withoutEpsilon (first follow : SetFamily) (o : Occurrence) :
    followStep? first follow o.withoutEpsilon = followStep? first follow o := by
  unfold followStep?
  rw [Occurrence.withoutEpsilon, first.firstOfSequence?_withoutEpsilon]

theorem followReport?_withoutEpsilon (first follow : SetFamily) (o : Occurrence) :
    followReport? first follow o.withoutEpsilon = followReport? first follow o := by
  unfold followReport?
  rw [Occurrence.withoutEpsilon, first.firstOfSequence?_withoutEpsilon]

end Grammar

theorem Rule.claims?_withoutEpsilon (a : Analysis) (r : Rule) : r.withoutEpsilon.claims? a = r.claims? a := by
  unfold claims?
  rw [Rule.withoutEpsilon, a.first.firstOfSequence?_withoutEpsilon]

/-! ## Passes over all of them -/

namespace Grammar
variable (g : Grammar) (first : SetFamily)

theorem nullablePass?_withoutEpsilon : g.withoutEpsilon.nullablePass? = g.nullablePass? := by
  funext known
  simp only [nullablePass?, withoutEpsilon, List.foldlM_map, nullableStep?_withoutEpsilon]

theorem firstPass?_withoutEpsilon : g.withoutEpsilon.firstPass? = g.firstPass? := by
  funext f
  simp only [firstPass?, rules_withoutEpsilon, List.foldlM_map, Rule.withoutEpsilon,
    SetFamily.firstOfSequence?_withoutEpsilon]

theorem followPass?_withoutEpsilon : g.withoutEpsilon.followPass? first = g.followPass? first := by
  funext f
  simp only [followPass?, occurrences_withoutEpsilon, List.foldlM_map, followStep?_withoutEpsilon]

theorem reportedPass?_map {σ ι κ : Type} {step : σ → κ → Option (Report σ)} {items : List ι} {f : ι → κ} :
    reportedPass? step (items.map f) = reportedPass? (fun s x => step s (f x)) items := by
  funext s
  exact List.foldlM_map

theorem reportedNullablePass?_withoutEpsilon : g.withoutEpsilon.reportedNullablePass? = g.reportedNullablePass? := by
  unfold reportedNullablePass?
  rw [withoutEpsilon, reportedPass?_map]
  simp only [nullableReport?_withoutEpsilon]

theorem reportedFirstPass?_withoutEpsilon : g.withoutEpsilon.reportedFirstPass? = g.reportedFirstPass? := by
  unfold reportedFirstPass?
  rw [rules_withoutEpsilon, reportedPass?_map]
  simp only [firstReport?_withoutEpsilon]

theorem reportedFollowPass?_withoutEpsilon : g.withoutEpsilon.reportedFollowPass? first = g.reportedFollowPass? first := by
  unfold reportedFollowPass?
  rw [occurrences_withoutEpsilon, reportedPass?_map]
  simp only [followReport?_withoutEpsilon]

theorem claims?_withoutEpsilon (a : Analysis) : g.withoutEpsilon.claims? a = g.claims? a := by
  unfold claims?
  rw [rules_withoutEpsilon, List.mapM_map]
  simp only [Function.comp_def, Rule.claims?_withoutEpsilon]

/-! ## The analysis -/

/-- The loops start from the same sets and their passes are the same, reports included. So the sets after each pass
are the same, and over any sets the tables are. -/
structure SameAnalysis (g h : Grammar) : Prop where
  size : g.size = h.size
  followStart : g.followStart? = h.followStart?
  nullablePass : g.reportedNullablePass? = h.reportedNullablePass?
  firstPass : g.reportedFirstPass? = h.reportedFirstPass?
  followPass : ∀ first, g.reportedFollowPass? first = h.reportedFollowPass? first
  nullable : g.nullable? = h.nullable?
  firstPasses : g.firstPasses? = h.firstPasses?
  first : g.first? = h.first?
  followPasses : ∀ first, g.followPasses? first = h.followPasses? first
  follow : ∀ first, g.follow? first = h.follow? first
  table : ∀ a, g.table? a = h.table? a
  strictTable : ∀ a, g.strictTable? a = h.strictTable? a

theorem followStart?_withoutEpsilon : g.withoutEpsilon.followStart? = g.followStart? := by
  unfold followStart?
  rw [size_withoutEpsilon]
  rfl

theorem nullable?_withoutEpsilon : g.withoutEpsilon.nullable? = g.nullable? := by
  unfold nullable?
  rw [nullablePass?_withoutEpsilon, size_withoutEpsilon]

theorem firstPasses?_withoutEpsilon : g.withoutEpsilon.firstPasses? = g.firstPasses? := by
  have hle : g.withoutEpsilon.size * (g.withoutEpsilon.bodySize + 2) + 1 ≤ g.size * (g.bodySize + 2) + 1 := by
    rw [size_withoutEpsilon]
    exact Nat.succ_le_succ (Nat.mul_le_mul_left _ (Nat.add_le_add_right g.bodySize_withoutEpsilon_le 2))
  rw [g.withoutEpsilon.firstPasses?_eq_of_le hle, firstPass?_withoutEpsilon, size_withoutEpsilon]
  rfl

theorem followPasses?_withoutEpsilon : g.withoutEpsilon.followPasses? first = g.followPasses? first := by
  have hle : g.withoutEpsilon.size * (first.weight + g.withoutEpsilon.bodySize + 1) + 1 ≤
      g.size * (first.weight + g.bodySize + 1) + 1 := by
    rw [size_withoutEpsilon]
    exact Nat.succ_le_succ (Nat.mul_le_mul_left _ (Nat.succ_le_succ (Nat.add_le_add_left g.bodySize_withoutEpsilon_le _)))
  rw [g.withoutEpsilon.followPasses?_eq_of_le hle, followPass?_withoutEpsilon, followStart?_withoutEpsilon]
  rfl

theorem sameAnalysis_withoutEpsilon : g.withoutEpsilon.SameAnalysis g where
  size := g.size_withoutEpsilon
  followStart := g.followStart?_withoutEpsilon
  nullablePass := g.reportedNullablePass?_withoutEpsilon
  firstPass := g.reportedFirstPass?_withoutEpsilon
  followPass := g.reportedFollowPass?_withoutEpsilon
  nullable := g.nullable?_withoutEpsilon
  firstPasses := g.firstPasses?_withoutEpsilon
  first := by rw [first?, first?, firstPasses?_withoutEpsilon, size_withoutEpsilon]
  followPasses := g.followPasses?_withoutEpsilon
  follow first := by rw [follow?, follow?, followPasses?_withoutEpsilon, size_withoutEpsilon]
  table a := by rw [table?, table?, claims?_withoutEpsilon]
  strictTable a := by rw [strictTable?, strictTable?, claims?_withoutEpsilon]

end Grammar

/-! ## Texts with ε kept -/

def Alphabet.productionWithEpsilon (a : Alphabet) (alternative : String) : Production :=
  (Text.tokens alternative).filterMap a.symbolOf?

/-- The grammar that a text would have if the word ε were taken for a symbol. -/
def GrammarText.grammarWithEpsilon (t : GrammarText) : Grammar :=
  .ofLists (t.names.map fun name => (name, (t.rules.filter fun r => r.name == name).flatMap fun r =>
    r.alternatives.map t.alphabet.productionWithEpsilon)) t.alphabet.terminals (t.names.idxOf (Text.trim t.start))

theorem GrammarText.withoutEpsilon_grammarWithEpsilon (t : GrammarText) :
    t.grammarWithEpsilon.withoutEpsilon = t.grammar := by
  refine Grammar.ext (List.ext_getElem? fun i => ?_) rfl ?_ rfl
  · show _ = t.grammar.nonTerminal? i
    rw [nonTerminal?_grammar]
    simp [grammarWithEpsilon, Grammar.withoutEpsilon, Grammar.ofLists, NonTerminal.withoutEpsilon, productionsOf,
      List.map_flatMap, Function.comp_def]
    rfl
  · show Alphabet.table _ = Alphabet.table _
    rw [List.map_map, List.map_map]
    rfl

/-- The analysis does not see the ε in productions. So a text loses nothing with the word ε, wherever it stands. -/
theorem Grammar.analysis_ignores_epsilon : (∀ g : Grammar, g.withoutEpsilon.SameAnalysis g) ∧
    ∀ t : GrammarText, t.grammar.SameAnalysis t.grammarWithEpsilon := by
  constructor
  · exact sameAnalysis_withoutEpsilon
  · intro t
    rw [← t.withoutEpsilon_grammarWithEpsilon]
    exact t.grammarWithEpsilon.sameAnalysis_withoutEpsilon

end Predictive
