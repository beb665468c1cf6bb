import Predictive.Grammar.Expression
import Predictive.Proofs.FollowClosure
import Predictive.Proofs.WellFormed

/-!
# FOLLOW by passes is FOLLOW by derivations

What stands after a nonterminal in a derived form is closed, so the FOLLOW sets
are sound. For the converse, every form derived is guarded: wherever a
nonterminal stands in it, its FOLLOW set has what can open the rest.
-/

namespace Predictive

theorem append_eq_append_cons {u w α σ : List Symbol} {s : Symbol} (h : u ++ w = α ++ s :: σ) :
    (∃ v, u = α ++ s :: v ∧ σ = v ++ w) ∨ ∃ v, α = u ++ v ∧ w = v ++ s :: σ := by
  rcases List.append_eq_append_iff.mp h with ⟨v, hα, hw⟩ | ⟨v, hu, hw⟩
  · exact Or.inr ⟨v, hα, hw⟩
  · cases v with
    | nil =>
      rw [List.append_nil] at hu
      exact Or.inr ⟨[], by rw [hu, List.append_nil], hw.symm⟩
    | cons b v =>
      rw [List.cons_append, List.cons.injEq] at hw
      obtain ⟨rfl, rfl⟩ := hw
      exact Or.inl ⟨v, hu, rfl⟩

namespace Grammar

/-! ## Guarded forms -/

def Guarded (F P : Facts) (φ : List Symbol) : Prop :=
  ∀ α i σ, φ = α ++ .nonTerminal i :: σ → ∀ a, Opens F σ a → a ≠ .epsilon → P i a

section
variable {g : Grammar} {F P : Facts} (hF : g.FirstClosed F) (hP : g.FollowClosed F P)
include hF

theorem guarded_vanish {u v : List Symbol} (hφ : Guarded F P (u ++ .epsilon :: v)) : Guarded F P (u ++ v) := by
  intro α i σ hσ a ha hne
  rcases append_eq_append_cons hσ with ⟨u', rfl, rfl⟩ | ⟨v', rfl, rfl⟩
  · refine hφ α i (u' ++ .epsilon :: v) (by simp) a ?_ hne
    exact opens_of_produces hF (.vanish u' v) ha
  · exact hφ (u ++ .epsilon :: v') i σ (by simp) a ha hne

include hP

theorem guarded_expand {i k : Nat} {p u v : List Symbol} (h : g.production? i k = some p)
    (hφ : Guarded F P (u ++ .nonTerminal i :: v)) : Guarded F P (u ++ p ++ v) := by
  intro α j σ hσ a ha hne
  rw [List.append_assoc] at hσ
  rcases append_eq_append_cons hσ with ⟨u', rfl, rfl⟩ | ⟨w, rfl, hw⟩
  · -- before the production: the rest opens with no more than it did
    refine hφ α j (u' ++ .nonTerminal i :: v) (by simp) a ?_ hne
    rw [← List.append_assoc] at ha
    exact opens_of_produces hF (.expand u' v h) ha
  rcases append_eq_append_cons hw with ⟨p', hp, rfl⟩ | ⟨v', rfl, rfl⟩
  · have ho : (⟨i, j, p'⟩ : Occurrence) ∈ g.occurrences :=
      mem_occurrences.mpr ⟨⟨i, k, p⟩, mem_rules.mpr h, rfl, w, hp⟩
    rcases (opens_append p' v).mp ha with ⟨hp', _⟩ | ⟨hε, hv⟩
    · exact hP.opening _ ho a hp' hne
    · exact hP.inherited _ ho hε a (hφ u i v rfl a hv hne)
  · exact hφ (u ++ .nonTerminal i :: v') j σ (by simp) a ha hne

theorem guarded_of_produces {φ ψ : List Symbol} (h : g.Produces φ ψ) (hφ : Guarded F P φ) : Guarded F P ψ := by
  cases h with
  | expand u v h => exact guarded_expand hF hP h hφ
  | vanish u v => exact guarded_vanish hF hφ

theorem guarded_of_derives {φ ψ : List Symbol} (h : g.Derives φ ψ) (hφ : Guarded F P φ) : Guarded F P ψ := by
  induction h with
  | refl => exact hφ
  | tail _ hs ih => exact guarded_of_produces hF hP hs ih

end

theorem guarded_singleton (F P : Facts) (x : Nat) : Guarded F P [.nonTerminal x] := by
  intro α i σ hσ a ha hne
  have hnil : σ = [] := by
    cases α with
    | nil => exact ((List.cons.inj hσ).2).symm
    | cons b α => simp at hσ
  rw [hnil] at ha
  exact absurd ha hne

theorem guarded_start {F P : Facts} {x : Nat} (h : P x .endOfInput) :
    Guarded F P [.nonTerminal x, .endOfInput] := by
  intro α i σ hσ a ha hne
  cases α with
  | nil =>
    simp only [List.nil_append, List.cons.injEq, Symbol.nonTerminal.injEq] at hσ
    obtain ⟨rfl, rfl⟩ := hσ
    rw [show a = .endOfInput from ha]
    exact h
  | cons b α =>
    cases α with
    | nil => simp at hσ
    | cons c α => simp at hσ

/-! ## FOLLOW by derivations -/

/-- FOLLOW of a nonterminal, told by the forms in which it stands. -/
def FollowOf (g : Grammar) (i : Nat) : Symbol → Prop
  | .terminal k => ∃ x < g.size, ∃ α β, g.Derives [.nonTerminal x] (α ++ .nonTerminal i :: .terminal k :: β)
  | .endOfInput => ∃ α, g.Derives [.nonTerminal g.start] (α ++ [.nonTerminal i])
  | _ => False

section
variable {g : Grammar} {o : Occurrence} (ho : o ∈ g.occurrences)
include ho

theorem derives_occurrence :
    ∃ u, g.Derives [.nonTerminal o.left] (u ++ .nonTerminal o.nonTerminal :: o.rest) := by
  obtain ⟨r, hr, hleft, u, hright⟩ := mem_occurrences.mp ho
  have := derives_rule hr
  rw [hleft, hright] at this
  exact ⟨u, this⟩

theorem derives_inherited (hε : g.Derives o.rest []) (α β : List Symbol) :
    ∃ u, g.Derives (α ++ .nonTerminal o.left :: β) (u ++ .nonTerminal o.nonTerminal :: β) := by
  obtain ⟨u, hu⟩ := derives_occurrence ho
  have h₁ := hu.append α β
  have h₂ := hε.append (α ++ u ++ [.nonTerminal o.nonTerminal]) β
  simp only [List.append_assoc, List.cons_append, List.nil_append] at h₁ h₂
  refine ⟨α ++ u, ?_⟩
  rw [List.append_assoc]
  exact h₁.trans h₂

theorem followOf_inherited (hε : g.Derives o.rest []) :
    ∀ {a : Symbol}, g.FollowOf o.left a → g.FollowOf o.nonTerminal a
  | .epsilon, h => h.elim
  | .nonTerminal _, h => h.elim
  | .endOfInput, ⟨α, hα⟩ => by
    obtain ⟨u, hu⟩ := derives_inherited ho hε α []
    exact ⟨u, hα.trans hu⟩
  | .terminal k, ⟨x, hx, α, β, hαβ⟩ => by
    obtain ⟨u, hu⟩ := derives_inherited ho hε α (.terminal k :: β)
    exact ⟨x, hx, u, β, hαβ.trans hu⟩

end

section
variable {g : Grammar} (hg : g.WellFormed)
include hg

theorem plain_of_derives {α β : List Symbol} (h : g.Derives α β) (hα : Production.Plain α) :
    Production.Plain β :=
  forall_mem_of_derives hg.plain h hα

theorem plain_rest {o : Occurrence} (ho : o ∈ g.occurrences) : Production.Plain o.rest := by
  obtain ⟨r, hr, _, u, hright⟩ := mem_occurrences.mp ho
  intro s hs
  refine hg.plain r hr s ?_
  rw [hright]
  exact List.mem_append_right _ (List.mem_cons_of_mem _ hs)

theorem followOf_opening {o : Occurrence} (ho : o ∈ g.occurrences) :
    ∀ {a : Symbol}, g.FirstOf o.rest a → a ≠ .epsilon → g.FollowOf o.nonTerminal a
  | .epsilon, _, hne => absurd rfl hne
  | .nonTerminal _, h, _ => h.elim
  | .endOfInput, ⟨_, hβ⟩, _ =>
    absurd rfl (plain_of_derives hg hβ (plain_rest hg ho) .endOfInput List.mem_cons_self).2
  | .terminal k, ⟨β, hβ⟩, _ => by
    obtain ⟨u, hu⟩ := derives_occurrence ho
    have hrest := hβ.append (u ++ [.nonTerminal o.nonTerminal]) []
    simp only [List.append_assoc, List.cons_append, List.nil_append, List.append_nil] at hrest
    exact ⟨o.left, (occurrence_in_range hg.bodies ho).1, u, β, hu.trans hrest⟩

theorem followClosed_followOf {F : Facts} (hF : ∀ α a, Opens F α a → g.FirstOf α a) :
    g.FollowClosed F g.FollowOf where
  start := ⟨[], .refl⟩
  opening _ ho _ ha hne := followOf_opening hg ho (hF _ _ ha) hne
  inherited _ ho hε _ ha := followOf_inherited ho (hF _ _ hε) ha

end

theorem holds_of_followOf {g : Grammar} {F P : Facts} (hF : g.FirstClosed F) (hP : g.FollowClosed F P) {i : Nat} :
    ∀ {a : Symbol}, g.FollowOf i a → P i a
  | .epsilon, h => h.elim
  | .nonTerminal _, h => h.elim
  | .terminal k, ⟨x, _, α, β, h⟩ =>
    guarded_of_derives hF hP h (guarded_singleton F P x) α i _ rfl _ rfl (by simp)
  | .endOfInput, ⟨α, h⟩ => by
    have h' := h.append [] [.endOfInput]
    rw [List.nil_append, List.nil_append, List.append_assoc] at h'
    exact guarded_of_derives hF hP h' (guarded_start hP.start) α i _ rfl _ rfl (by simp)

theorem IsFollow.holds_iff {g : Grammar} {first follow : SetFamily} (hP : g.IsFollow first follow)
    (hg : g.WellFormed) (hF : g.IsFirst first) {i : Nat} {a : Symbol} : follow.Holds i a ↔ g.FollowOf i a := by
  constructor
  · exact hP.least _ (followClosed_followOf hg fun _ _ => hF.opens_iff.mp) i a
  · exact holds_of_followOf hF.closed hP.closed

/-! ## The sets and the derivations -/

theorem exists_form_of_start {g : Grammar} {i k : Nat}
    (hreach : ∀ x < g.size, ∃ α β, g.Derives [.nonTerminal g.start] (α ++ .nonTerminal x :: β))
    (h : g.FollowOf i (.terminal k)) :
    ∃ α β, g.Derives [.nonTerminal g.start] (α ++ .nonTerminal i :: .terminal k :: β) := by
  obtain ⟨x, hx, α, β, hαβ⟩ := h
  obtain ⟨u, v, huv⟩ := hreach x hx
  have hform := hαβ.append u v
  simp only [List.append_assoc, List.cons_append, List.nil_append] at hform
  refine ⟨u ++ α, β ++ v, huv.trans ?_⟩
  rw [List.append_assoc]
  exact hform

/-- FOLLOW of a nonterminal holds the terminals that stand after it in a form
derived from any nonterminal, and the end of input if it ends a form derived
from the start. -/
theorem follow_iff_derives {t : GrammarText} {g : Grammar} (h : t.read = .ok g) :
    ∃ a, g.analysis? = some a ∧ ∀ i < g.size, ∃ s, a.follow.get? i = some s ∧
      (∀ k, .terminal k ∈ s ↔
        ∃ x < g.size, ∃ α β, g.Derives [.nonTerminal x] (α ++ .nonTerminal i :: .terminal k :: β)) ∧
      (.endOfInput ∈ s ↔ ∃ α, g.Derives [.nonTerminal g.start] (α ++ [.nonTerminal i])) ∧
      (∀ b ∈ s, b.isLookahead = true) ∧
      ((∀ x < g.size, ∃ α β, g.Derives [.nonTerminal g.start] (α ++ .nonTerminal x :: β)) →
        ∀ k, .terminal k ∈ s ↔
          ∃ α β, g.Derives [.nonTerminal g.start] (α ++ .nonTerminal i :: .terminal k :: β)) := by
  have hg := GrammarText.wellFormed_of_read h
  obtain ⟨a, ha, hF, hP⟩ := exists_analysis? hg.bodies hg.start
  refine ⟨a, ha, fun i hi => ?_⟩
  obtain ⟨s, hs⟩ := SetFamily.exists_get? (hP.size ▸ hi)
  have hmem : ∀ b, b ∈ s ↔ g.FollowOf i b := fun b => (SetFamily.holds_iff hs).symm.trans (hP.holds_iff hg hF)
  refine ⟨s, hs, fun k => hmem (.terminal k), hmem .endOfInput, fun b hb => ?_, fun hreach k => ?_⟩
  · have hb' := (hmem b).mp hb
    cases b with
    | terminal _ => rfl
    | endOfInput => rfl
    | nonTerminal _ => exact hb'.elim
    | epsilon => exact hb'.elim
  · rw [hmem]
    constructor
    · exact exists_form_of_start hreach
    · rintro ⟨α, β, hαβ⟩
      exact ⟨g.start, hg.start, α, β, hαβ⟩

theorem read_expressionText : expressionText.read = .ok expressionText.grammar :=
  GrammarText.read_eq_ok_iff.mpr ⟨by decide +kernel, rfl⟩

/-- In sums and products, `Y` can end the input, and `id` never stands after `F`. -/
theorem follow_iff_derives_expression : expressionText.read = .ok expressionText.grammar ∧
    (∃ α, expressionText.grammar.Derives [.nonTerminal 0] (α ++ [.nonTerminal 3])) ∧
    ¬ ∃ x < expressionText.grammar.size, ∃ α β,
      expressionText.grammar.Derives [.nonTerminal x] (α ++ .nonTerminal 4 :: .terminal 4 :: β) := by
  have hY : (expressionText.grammar.analysis?.bind (·.follow.get? 3)).map SymbolSet.toList =
      some [.terminal 0, .terminal 3, .endOfInput] := by decide +kernel
  have hF : (expressionText.grammar.analysis?.bind (·.follow.get? 4)).map SymbolSet.toList =
      some [.terminal 0, .terminal 1, .terminal 3, .endOfInput] := by decide +kernel
  obtain ⟨a, ha, hsets⟩ := follow_iff_derives read_expressionText
  obtain ⟨s, hs, _, hend, _⟩ := hsets 3 (by decide +kernel)
  obtain ⟨s', hs', hterminal, _⟩ := hsets 4 (by decide +kernel)
  rw [ha, Option.bind_some, hs, Option.map_some, Option.some.injEq] at hY
  rw [ha, Option.bind_some, hs', Option.map_some, Option.some.injEq] at hF
  refine ⟨read_expressionText, hend.mp ?_, fun h => ?_⟩
  · show _ ∈ s.toList
    rw [hY]
    decide
  · have hmem : Symbol.terminal 4 ∈ s'.toList := (hterminal 4).mpr h
    rw [hF] at hmem
    exact absurd hmem (by decide)

end Grammar

end Predictive
