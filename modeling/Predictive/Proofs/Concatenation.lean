import Predictive.Proofs.Opening

/-!
# FIRST of concatenated sequences

FIRST of a sequence is put together from FIRST of its symbols, where a symbol
counts only if everything before it can vanish. So a concatenation may be cut
anywhere, and a nonterminal is looked up only if the part before it vanishes.
-/

namespace Predictive

namespace SymbolSet

/-- A set for a part, with the outcome for the later parts, which counts only if
the part can vanish. -/
def andThen? (s : SymbolSet) (later : Option SymbolSet) : Option SymbolSet :=
  if Symbol.epsilon ∈ s then later.map (s.erase .epsilon ∪ ·) else some s

section
variable {s : SymbolSet}

theorem andThen?_of_mem (h : .epsilon ∈ s) (later : Option SymbolSet) :
    s.andThen? later = later.map (s.erase .epsilon ∪ ·) :=
  if_pos h

theorem andThen?_of_not_mem (h : .epsilon ∉ s) (later : Option SymbolSet) : s.andThen? later = some s := if_neg h

theorem erase_of_not_mem {a : Symbol} (h : a ∉ s) : s.erase a = s := by
  refine ext fun b => ?_
  rw [mem_erase, and_iff_left_iff_imp]
  exact fun hb e => h (e ▸ hb)

theorem empty_union (s : SymbolSet) : ∅ ∪ s = s := ext fun a => by simp

theorem singleton_epsilon_andThen? (later : Option SymbolSet) : (singleton .epsilon).andThen? later = later := by
  have herase : ∀ t : SymbolSet, (singleton .epsilon).erase .epsilon ∪ t = t := fun t => ext fun a => by simp
  rw [andThen?_of_mem (by simp), funext herase, Option.map_id']

theorem andThen?_singleton_epsilon (s : SymbolSet) : s.andThen? (some (singleton .epsilon)) = some s := by
  by_cases h : .epsilon ∈ s
  · rw [andThen?_of_mem h, Option.map_some]
    refine congrArg some (ext fun a => ?_)
    by_cases ha : a = .epsilon <;> simp [ha, h]
  · exact andThen?_of_not_mem h _

theorem andThen?_assoc (s : SymbolSet) (middle last : Option SymbolSet) :
    (s.andThen? middle).bind (·.andThen? last) = s.andThen? (middle.bind (·.andThen? last)) := by
  by_cases h : .epsilon ∈ s
  · rw [andThen?_of_mem h, andThen?_of_mem h, Option.bind_map, Option.map_bind]
    refine congrArg middle.bind (funext fun t => ?_)
    have hmem : .epsilon ∈ s.erase .epsilon ∪ t ↔ .epsilon ∈ t := by simp
    by_cases ht : .epsilon ∈ t
    · have hunion : ∀ u : SymbolSet, (s.erase .epsilon ∪ t).erase .epsilon ∪ u =
          s.erase .epsilon ∪ (t.erase .epsilon ∪ u) := by
        refine fun u => ext fun a => ?_
        simp only [mem_union, mem_erase]
        tauto
      rw [Function.comp_apply, Function.comp_apply, andThen?_of_mem (hmem.mpr ht), andThen?_of_mem ht, Option.map_map]
      exact congrArg (Option.map · last) (funext hunion)
    · rw [Function.comp_apply, Function.comp_apply, andThen?_of_not_mem (hmem.not.mpr ht), andThen?_of_not_mem ht,
        Option.map_some]
  · rw [andThen?_of_not_mem h, andThen?_of_not_mem h, Option.bind_some, andThen?_of_not_mem h]

end

/-- An outcome is below another one if it is a smaller set. Everything is below a failure. -/
def Below (r s : Option SymbolSet) : Prop := ∀ t, s = some t → ∃ u, r = some u ∧ u ⊆ t

theorem Below.andThen? {s t : SymbolSet} {r r' : Option SymbolSet} (hst : s ⊆ t) (h : Below r r') :
    Below (s.andThen? r) (t.andThen? r') := by
  intro u hu
  by_cases ht : .epsilon ∈ t
  · rw [andThen?_of_mem ht] at hu
    obtain ⟨v', hv', rfl⟩ := Option.map_eq_some_iff.mp hu
    obtain ⟨v, hv, hsub⟩ := h v' hv'
    by_cases hs : .epsilon ∈ s
    · refine ⟨s.erase .epsilon ∪ v, by rw [andThen?_of_mem hs, hv, Option.map_some], fun a ha => ?_⟩
      rw [mem_toList, mem_union, mem_erase] at ha
      rw [mem_union, mem_erase]
      exact ha.imp (And.imp_left (hst a)) (hsub a)
    · refine ⟨s, andThen?_of_not_mem hs r, fun a ha => ?_⟩
      rw [mem_union, mem_erase]
      exact Or.inl ⟨hst a ha, fun e => hs (e ▸ ha)⟩
  · have hs : .epsilon ∉ s := fun hmem => ht (hst _ hmem)
    rw [andThen?_of_not_mem ht, Option.some.injEq] at hu
    exact ⟨s, andThen?_of_not_mem hs r, hu ▸ hst⟩

end SymbolSet

namespace SetFamily

open SymbolSet

/-- The walk along a sequence with the set of all that was found so far; ε is
added at the end. -/
def collect? (first : SetFamily) (found : SymbolSet) : Production → Option SymbolSet
  | [] => some (found.insert .epsilon)
  | .epsilon :: rest => collect? first found rest
  | .nonTerminal i :: rest =>
    (first.get? i).bind fun s =>
      let found := found ∪ s.erase .epsilon
      if Symbol.epsilon ∈ s then collect? first found rest else some found
  | s :: _ => some (found.insert s)

theorem insert_eq_union (s : SymbolSet) (a : Symbol) : s.insert a = s ∪ .singleton a :=
  SymbolSet.ext fun b => by simp [or_comm]

theorem collect?_eq (first : SetFamily) : ∀ (α : Production) (found : SymbolSet),
    first.collect? found α = (first.firstOfSequence? α).map (found ∪ ·)
  | [], found | .terminal _ :: _, found | .endOfInput :: _, found => by
    simp only [collect?, firstOfSequence?, insert_eq_union, Option.map_some]
  | .epsilon :: α, found => collect?_eq first α found
  | .nonTerminal i :: α, found => by
    unfold collect? firstOfSequence?
    rw [Option.map_bind]
    refine congrArg (first.get? i).bind (funext fun s => ?_)
    by_cases h : .epsilon ∈ s
    · have hunion : ∀ t : SymbolSet, (found ∪ s.erase .epsilon) ∪ t = found ∪ (s.erase .epsilon ∪ t) :=
        fun t => SymbolSet.ext fun a => by simp [or_assoc]
      rw [Function.comp_apply, if_pos h, if_pos h, collect?_eq first α, Option.map_map]
      exact congrArg (Option.map · _) (funext hunion)
    · rw [Function.comp_apply, if_neg h, if_neg h, Option.map_some, erase_of_not_mem h]

variable {first : SetFamily}

theorem firstOfSequence?_cons (a : Symbol) (α : Production) :
    first.firstOfSequence? (a :: α) = (first.firstOfSymbol? a).bind (·.andThen? (first.firstOfSequence? α)) := by
  cases a with
  | terminal i => exact (andThen?_of_not_mem (by simp) _).symm
  | endOfInput => exact (andThen?_of_not_mem (by simp) _).symm
  | epsilon => exact (singleton_epsilon_andThen? _).symm
  | nonTerminal i => rfl

theorem firstOfSequence?_append (α β : Production) :
    first.firstOfSequence? (α ++ β) = (first.firstOfSequence? α).bind (·.andThen? (first.firstOfSequence? β)) := by
  induction α with
  | nil => exact (singleton_epsilon_andThen? _).symm
  | cons a α ih =>
    rw [List.cons_append, firstOfSequence?_cons, firstOfSequence?_cons, ih, Option.bind_assoc]
    exact congrArg (first.firstOfSymbol? a).bind (funext fun s => (andThen?_assoc s _ _).symm)

theorem firstOfSequence?_symbol (a : Symbol) : first.firstOfSequence? [a] = first.firstOfSymbol? a := by
  rw [firstOfSequence?_cons]
  exact (congrArg (first.firstOfSymbol? a).bind (funext andThen?_singleton_epsilon)).trans (Option.bind_fun_some _)

theorem firstOfSymbol?_eq_none_iff {a : Symbol} :
    first.firstOfSymbol? a = none ↔ ∃ i, a = .nonTerminal i ∧ first.size ≤ i := by
  cases a <;> simp [firstOfSymbol?, get?, size]

/-- A sequence fails at the first nonterminal without a set that the walk reaches. -/
theorem firstOfSequence?_eq_none_iff {α : Production} : first.firstOfSequence? α = none ↔
    ∃ u i v s, α = u ++ .nonTerminal i :: v ∧ first.firstOfSequence? u = some s ∧ .epsilon ∈ s ∧ first.size ≤ i := by
  constructor
  · intro h
    induction α with
    | nil => cases h
    | cons a α ih =>
      rw [firstOfSequence?_cons] at h
      cases ha : first.firstOfSymbol? a with
      | none =>
        obtain ⟨i, rfl, hi⟩ := firstOfSymbol?_eq_none_iff.mp ha
        exact ⟨[], i, α, _, rfl, rfl, by simp, hi⟩
      | some s =>
        rw [ha, Option.bind_some] at h
        have hs : .epsilon ∈ s := by
          refine Classical.byContradiction fun hs => ?_
          rw [andThen?_of_not_mem hs] at h
          cases h
        rw [andThen?_of_mem hs, Option.map_eq_none_iff] at h
        obtain ⟨u, i, v, t, rfl, ht, hε, hi⟩ := ih h
        refine ⟨a :: u, i, v, s.erase .epsilon ∪ t, rfl, ?_, by simp [hε], hi⟩
        rw [firstOfSequence?_cons, ha, Option.bind_some, andThen?_of_mem hs, ht, Option.map_some]
  · rintro ⟨u, i, v, s, rfl, hu, hs, hi⟩
    rw [firstOfSequence?_append, hu, Option.bind_some, andThen?_of_mem hs, firstOfSequence?_cons,
      firstOfSymbol?_eq_none_iff.mpr ⟨i, rfl, hi⟩, Option.bind_none, Option.map_none]

theorem below_firstOfSymbol? {above : SetFamily} (h : first ≤ above) (a : Symbol) :
    Below (first.firstOfSymbol? a) (above.firstOfSymbol? a) := by
  cases a with
  | nonTerminal i =>
    intro t ht
    obtain ⟨hsize, hsub⟩ := le_def.mp h
    obtain ⟨s, hs⟩ := exists_get? (f := first) (i := i) (hsize ▸ (List.getElem?_eq_some_iff.mp ht).1)
    exact ⟨s, hs, hsub i s t hs ht⟩
  | _ => exact fun t ht => ⟨t, ht, fun _ ha => ha⟩

theorem below_firstOfSequence? {above : SetFamily} (h : first ≤ above) (α : Production) :
    Below (first.firstOfSequence? α) (above.firstOfSequence? α) := by
  induction α with
  | nil => exact fun t ht => ⟨t, ht, fun _ ha => ha⟩
  | cons a α ih =>
    intro t ht
    rw [firstOfSequence?_cons] at ht ⊢
    obtain ⟨u, hu, ht⟩ := Option.bind_eq_some_iff.mp ht
    obtain ⟨s, hs, hsub⟩ := below_firstOfSymbol? h a u hu
    rw [hs, Option.bind_some]
    exact ih.andThen? hsub t ht

/-- The families need not be of one size, as long as no lookup fails. -/
theorem firstOfSequence?_subset {above : SetFamily} (h : first.Holds ≤ above.Holds) {α : Production}
    {s t : SymbolSet} (hs : first.firstOfSequence? α = some s) (ht : above.firstOfSequence? α = some t) : s ⊆ t := by
  intro a ha
  have hopens : Opens first.Holds α a := (mem_firstOfSequence? hs).mp ha
  exact (mem_firstOfSequence? ht).mpr (hopens.mono h)

/-- FIRST of a concatenation hangs on FIRST of its parts, and on the later part
only if the earlier one vanishes. A nonterminal is looked up only if all before it
vanishes, and larger sets can only add members or failures. -/
theorem firstOfSequence?_homomorphism (first : SetFamily) :
    (∀ α, first.collect? ∅ α = first.firstOfSequence? α) ∧
    (∀ α β s, first.firstOfSequence? α = some s → .epsilon ∉ s → first.firstOfSequence? (α ++ β) = some s) ∧
    (∀ α β s, first.firstOfSequence? α = some s → .epsilon ∈ s →
      first.firstOfSequence? (α ++ β) = (first.firstOfSequence? β).map (s.erase .epsilon ∪ ·)) ∧
    (∀ α β, first.firstOfSequence? α = none → first.firstOfSequence? (α ++ β) = none) ∧
    (∀ a, first.firstOfSequence? [a] = first.firstOfSymbol? a) ∧
    (∀ α, first.firstOfSequence? α = none ↔ ∃ u i v s, α = u ++ .nonTerminal i :: v ∧
      first.firstOfSequence? u = some s ∧ .epsilon ∈ s ∧ first.size ≤ i) ∧
    (∀ above, first ≤ above → ∀ α, Below (first.firstOfSequence? α) (above.firstOfSequence? α)) ∧
    ∀ above : SetFamily, first.Holds ≤ above.Holds → ∀ α s t, first.firstOfSequence? α = some s →
      above.firstOfSequence? α = some t → s ⊆ t := by
  refine ⟨fun α => ?_, fun α β s h hs => ?_, fun α β s h hs => ?_, fun α β h => ?_, firstOfSequence?_symbol,
    fun _ => firstOfSequence?_eq_none_iff, fun _ h => below_firstOfSequence? h,
    fun _ h _ _ _ => firstOfSequence?_subset h⟩
  · rw [collect?_eq, funext empty_union, Option.map_id']
  · rw [firstOfSequence?_append, h, Option.bind_some, andThen?_of_not_mem hs]
  · rw [firstOfSequence?_append, h, Option.bind_some, andThen?_of_mem hs]
  · rw [firstOfSequence?_append, h, Option.bind_none]

/-- One nonterminal, which can vanish. -/
def vanishingFamily : SetFamily := ⟨[(singleton .epsilon).insert (.terminal 0)]⟩

/-- Behind a terminal a second nonterminal may be missing, and behind the first one not. -/
theorem firstOfSequence?_homomorphism_vanishing :
    vanishingFamily.firstOfSequence? [.nonTerminal 0, .terminal 1, .nonTerminal 1] =
      some ((singleton (.terminal 0)).insert (.terminal 1)) ∧
    vanishingFamily.firstOfSequence? [.nonTerminal 0, .epsilon, .endOfInput] =
      some ((singleton (.terminal 0)).insert .endOfInput) ∧
    vanishingFamily.firstOfSequence? [.epsilon, .nonTerminal 0, .nonTerminal 1, .terminal 1] = none := by
  obtain ⟨_, hsettled, hopen, _, _, hfails, _⟩ := firstOfSequence?_homomorphism vanishingFamily
  refine ⟨hsettled [.nonTerminal 0, .terminal 1] [.nonTerminal 1] _ (by decide) (by decide), ?_, (hfails _).mpr ?_⟩
  · have hjoined := hopen [.nonTerminal 0] [.epsilon, .endOfInput] ((singleton .epsilon).insert (.terminal 0))
      (by decide) (by decide)
    exact hjoined.trans (by decide)
  · exact ⟨[.epsilon, .nonTerminal 0], 1, [.terminal 1], (singleton .epsilon).insert (.terminal 0),
      rfl, by decide, by decide, by decide⟩

end SetFamily

end Predictive
