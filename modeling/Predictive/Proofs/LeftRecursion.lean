import Predictive.Proofs.Strict

/-!
# Accepted grammars are not left recursive

A nonterminal that derives a form which begins with itself lies on a cycle of
left corners. All nonterminals of a cycle open with the same symbols, and a
strict fill leaves each of them one production for such a symbol, the one that
goes on along the cycle. So the passes for FIRST can bring no symbol into the
cycle. If all nonterminals derive terminal strings, those of a cycle then derive
the empty string only, and the same is seen on a symbol that follows them.
-/

namespace Predictive

namespace Grammar

open Relation

def LeftRecursive (g : Grammar) (i : Nat) : Prop :=
  ∃ β, TransGen g.Produces [.nonTerminal i] (.nonTerminal i :: β)

/-! ## Left corners -/

/-- A right side of `i` has `j` after a part that derives the empty string. -/
def LeftCorner (g : Grammar) (i j : Nat) : Prop :=
  ∃ r ∈ g.rules, r.left = i ∧ ∃ u v, r.right = u ++ .nonTerminal j :: v ∧ g.Derives u []

section
variable {g : Grammar}

theorem derives_nil_append {u v : List Symbol} (h : g.Derives (u ++ v) []) : g.Derives u [] ∧ g.Derives v [] := by
  have hopens : Opens (fun i => g.FirstOf [.nonTerminal i]) (u ++ v) .epsilon :=
    opens_of_firstOf firstClosed_firstOf (a := .epsilon) h
  rcases (opens_append u v).mp hopens with ⟨_, hno⟩ | ⟨hu, hv⟩
  · exact absurd rfl hno
  · exact ⟨firstOf_of_opens hu, firstOf_of_opens hv⟩

theorem exists_corner_of_produces {φ ψ u v : List Symbol} {i : Nat} (h : g.Produces φ ψ)
    (hψ : ψ = u ++ .nonTerminal i :: v) (hu : g.Derives u []) :
    ∃ u' j v', φ = u' ++ .nonTerminal j :: v' ∧ g.Derives u' [] ∧ ReflTransGen g.LeftCorner j i := by
  cases h with
  | vanish a b =>
    rcases append_eq_append_cons hψ with ⟨a', rfl, rfl⟩ | ⟨w, rfl, rfl⟩
    · exact ⟨u, i, a' ++ .epsilon :: b, by simp, hu, .refl⟩
    · exact ⟨a ++ .epsilon :: w, i, v, by simp, .head (.vanish a w) hu, .refl⟩
  | @expand x k p a b hk =>
    rw [List.append_assoc] at hψ
    rcases append_eq_append_cons hψ with ⟨a', rfl, rfl⟩ | ⟨w, rfl, hw⟩
    · exact ⟨u, i, a' ++ .nonTerminal x :: b, by simp, hu, .refl⟩
    rcases append_eq_append_cons hw with ⟨p', rfl, rfl⟩ | ⟨w', rfl, rfl⟩
    · -- the nonterminal comes from the production, so it is a corner of `x`
      obtain ⟨ha, hw⟩ := derives_nil_append hu
      exact ⟨a, x, b, rfl, ha, .single ⟨⟨x, k, _⟩, mem_rules.mpr hk, rfl, w, p', rfl, hw⟩⟩
    · rw [← List.append_assoc] at hu
      exact ⟨a ++ .nonTerminal x :: w', i, v, by simp, .head (.expand a w' hk) hu, .refl⟩

theorem exists_corner_of_derives {φ β : List Symbol} {i : Nat} (h : g.Derives φ (.nonTerminal i :: β)) :
    ∃ u j v, φ = u ++ .nonTerminal j :: v ∧ g.Derives u [] ∧ ReflTransGen g.LeftCorner j i := by
  induction h using ReflTransGen.head_induction_on with
  | refl => exact ⟨[], i, β, rfl, .refl, .refl⟩
  | head hs _ ih =>
    obtain ⟨u, j, v, hψ, hu, hj⟩ := ih
    obtain ⟨u', x, v', hφ, hu', hx⟩ := exists_corner_of_produces hs hψ hu
    exact ⟨u', x, v', hφ, hu', hx.trans hj⟩

theorem exists_rule_of_produces {i : Nat} {φ : List Symbol} (h : g.Produces [.nonTerminal i] φ) :
    ∃ r ∈ g.rules, r.left = i ∧ r.right = φ := by
  generalize hψ : [Symbol.nonTerminal i] = ψ at h
  cases h with
  | vanish u v => cases u <;> simp at hψ
  | @expand x k p u v hk =>
    cases u with
    | nil =>
      simp only [List.nil_append, List.cons.injEq, Symbol.nonTerminal.injEq] at hψ
      obtain ⟨rfl, rfl⟩ := hψ
      exact ⟨⟨i, k, p⟩, mem_rules.mpr hk, rfl, by simp⟩
    | cons b u => simp at hψ

theorem LeftRecursive.cycle {i : Nat} (h : g.LeftRecursive i) : TransGen g.LeftCorner i i := by
  obtain ⟨β, h⟩ := h
  obtain ⟨φ, hs, hβ⟩ := TransGen.head'_iff.mp h
  obtain ⟨r, hr, hleft, rfl⟩ := exists_rule_of_produces hs
  obtain ⟨u, j, v, hright, hu, hj⟩ := exists_corner_of_derives hβ
  exact TransGen.head' ⟨r, hr, hleft, u, v, hright, hu⟩ hj

theorem exists_rule_of_cycle {i : Nat} (h : TransGen g.LeftCorner i i) :
    ∃ r ∈ g.rules, r.left = i ∧ ∃ u j v, r.right = u ++ .nonTerminal j :: v ∧ g.Derives u [] ∧
      ReflTransGen g.LeftCorner j i ∧ TransGen g.LeftCorner j j := by
  obtain ⟨j, hij, hji⟩ := TransGen.head'_iff.mp h
  have hcycle : TransGen g.LeftCorner j j := TransGen.tail' hji hij
  obtain ⟨r, hr, hleft, u, v, hright, hu⟩ := hij
  exact ⟨r, hr, hleft, u, j, v, hright, hu, hji, hcycle⟩

/-! ## What the nonterminals of a cycle open with -/

theorem opens_corner {P : Facts} {u v : List Symbol} {j : Nat} {t : Symbol} (hu : Opens P u .epsilon) (hj : P j t)
    (hne : t ≠ .epsilon) : Opens P (u ++ .nonTerminal j :: v) t := by
  rw [opens_append]
  exact Or.inr ⟨hu, Or.inl ⟨hj, hne⟩⟩

theorem first_of_leftCorners {first : SetFamily} (hF : g.IsFirst first) {i j : Nat} {t : Symbol}
    (h : ReflTransGen g.LeftCorner i j) (hj : first.Holds j t) (hne : t ≠ .epsilon) : first.Holds i t := by
  induction h using ReflTransGen.head_induction_on with
  | refl => exact hj
  | head hs _ ih =>
    obtain ⟨r, hr, rfl, u, v, hright, hu⟩ := hs
    apply hF.closed r hr
    rw [hright]
    exact opens_corner (hF.opens_epsilon_iff.mpr hu) ih hne

section
variable {first follow : SetFamily} (hF : g.IsFirst first) (hP : g.IsFollow first follow)
  {claims : List Cell} (hmem : ∀ c, c ∈ claims ↔ ∃ r ∈ g.rules, r.Claims first.Holds follow.Holds c)
  {u : Table} (hu : (∅ : Table).fillStrictly claims = .ok u)
include hF hP hmem hu

theorem not_first_of_cycle {i : Nat} {t : Symbol} (ht : first.Holds i t) (hne : t ≠ .epsilon) :
    ¬ TransGen g.LeftCorner i i := by
  have key : first.Holds ≤ fun i t => first.Holds i t ∧ (t ≠ .epsilon → ¬ TransGen g.LeftCorner i i) := by
    refine hF.induction ?_
    intro r hr t ht ih
    have hrt := hF.closed r hr t ht
    refine ⟨hrt, fun hne hcycle => ?_⟩
    have hlook := hF.isLookahead hrt hne
    obtain ⟨q, hq, hleft, α, j, β, hright, hα, hj, hjcycle⟩ := exists_rule_of_cycle hcycle
    have hα' := hF.opens_epsilon_iff.mpr hα
    have hjt : first.Holds j t := first_of_leftCorners hF hj hrt hne
    -- the rule that goes on along the cycle opens with `t` as well, so it is the given one
    have hqt : Opens first.Holds q.right t := hright ▸ opens_corner hα' hjt hne
    have hrq : r = q := rule_eq_of_claims hmem hu hr hq (.opening hlook ht) (.opening hlook hqt)
      (congrArg (Slot.mk · t) hleft.symm)
    subst hrq
    rw [hright] at ih
    rcases (opens_append α _).mp ih with ⟨hαt, _⟩ | ⟨_, ⟨⟨_, hno⟩, _⟩ | ⟨⟨hjε, _⟩, hβt⟩⟩
    · -- `t` comes from a nonterminal before `j` that can vanish, but `j` brings it after that one
      obtain ⟨a, x, b, rfl, hxε, hb, hxt, _⟩ := exists_nonTerminal_of_opens hα' hαt hlook
      have ho : (⟨r.left, x, b ++ .nonTerminal j :: β⟩ : Occurrence) ∈ g.occurrences :=
        mem_occurrences.mpr ⟨r, hr, rfl, a, by simp [hright]⟩
      have hfollow := hP.closed.opening _ ho t (opens_corner hb hjt hne) hne
      exact not_follow_of_first hF hP hmem hu hxt hne hxε hfollow
    · exact hno hne hjcycle
    · -- `t` comes from behind `j`, which can vanish and opens with `t` itself
      have ho : (⟨r.left, j, β⟩ : Occurrence) ∈ g.occurrences := mem_occurrences.mpr ⟨r, hr, rfl, α, hright⟩
      have hfollow := hP.closed.opening _ ho t (hβt.mono fun _ _ => And.left) hne
      exact not_follow_of_first hF hP hmem hu hjt hne hjε hfollow
  exact (key i t ht).2 hne

omit hP in
theorem not_epsilon_of_cycle
    (hvanish : ∀ r ∈ g.rules, TransGen g.LeftCorner r.left r.left → g.Derives r.right [])
    (hfollow : ∀ i, TransGen g.LeftCorner i i → ∃ t, follow.Holds i t) {i : Nat} (hε : first.Holds i .epsilon) :
    ¬ TransGen g.LeftCorner i i := by
  have key : first.Holds ≤ fun i t => t = .epsilon → ¬ TransGen g.LeftCorner i i := by
    refine hF.induction ?_
    rintro r hr _ hrε ih rfl hcycle
    obtain ⟨q, hq, hleft, α, j, β, hright, _, _, hjcycle⟩ := exists_rule_of_cycle hcycle
    have hqε := hF.opens_epsilon_iff.mpr (hvanish q hq (hleft.symm ▸ hcycle))
    obtain ⟨t, ht⟩ := hfollow r.left hcycle
    have hrq : r = q := rule_eq_of_claims hmem hu hr hq (.following hrε ht) (.following hqε (hleft ▸ ht))
      (congrArg (Slot.mk · t) hleft.symm)
    subst hrq
    rw [hright, opens_append] at ih
    rcases ih with ⟨_, hno⟩ | ⟨_, ⟨_, hno⟩ | ⟨hjε, _⟩⟩
    · exact hno rfl
    · exact hno rfl
    · exact hjε rfl hjcycle
  exact key i _ hε rfl

end

/-! ## Grammars in which every nonterminal is of use -/

def Reachable (g : Grammar) (i : Nat) : Prop := ∃ α β, g.Derives [.nonTerminal g.start] (α ++ .nonTerminal i :: β)

def Productive (g : Grammar) (i : Nat) : Prop := ∃ w, Terminals w ∧ g.Derives [.nonTerminal i] w

section
variable (hprod : ∀ i < g.size, g.Productive i)
include hprod

theorem exists_terminals {φ : List Symbol} (hφ : ∀ s ∈ φ, g.Has s ∧ s ≠ .epsilon ∧ s ≠ .endOfInput) :
    ∃ w, Terminals w ∧ g.Derives φ w := by
  induction φ with
  | nil => exact ⟨[], fun _ hs => absurd hs List.not_mem_nil, .refl⟩
  | cons s φ ih =>
    obtain ⟨w, hw, hφw⟩ := ih fun b hb => hφ b (List.mem_cons_of_mem s hb)
    obtain ⟨hs, hne, hne'⟩ := hφ s List.mem_cons_self
    have hhead : ∃ v, Terminals v ∧ g.Derives [s] v := by
      cases s with
      | terminal k => exact ⟨[.terminal k], fun b hb => ⟨k, List.mem_singleton.mp hb⟩, .refl⟩
      | nonTerminal i => exact hprod i hs
      | epsilon => exact absurd rfl hne
      | endOfInput => exact absurd rfl hne'
    obtain ⟨v, hv, hsv⟩ := hhead
    refine ⟨v ++ w, ?_, ?_⟩
    · intro b hb
      rcases List.mem_append.mp hb with hb | hb
      · exact hv b hb
      · exact hw b hb
    · have h₁ := hsv.append [] φ
      have h₂ := hφw.append v []
      simp only [List.nil_append, List.append_nil, List.singleton_append] at h₁ h₂
      exact h₁.trans h₂

variable (hg : g.WellFormed)
include hg

theorem exists_terminals_of_derives {i : Nat} (hi : i < g.size) {α φ β : List Symbol}
    (h : g.Derives [.nonTerminal i] (α ++ φ ++ β)) : ∃ w, Terminals w ∧ g.Derives φ w := by
  apply exists_terminals hprod
  intro s hs
  refine forall_mem_of_derives (Q := fun s => g.Has s ∧ s ≠ .epsilon ∧ s ≠ .endOfInput) ?_ h ?_ s ?_
  · exact fun r hr s hs => ⟨hg.symbols r hr s hs, hg.plain r hr s hs⟩
  · intro s hs
    cases List.mem_singleton.mp hs
    exact ⟨hi, by simp, by simp⟩
  · simp [hs]

/-- Something follows a reachable nonterminal, if only the end of input. -/
theorem exists_follow_of_reachable {i : Nat} (h : g.Reachable i) : ∃ t, g.FollowOf i t := by
  obtain ⟨α, β, hαβ⟩ := h
  obtain ⟨w, hw, hβw⟩ := exists_terminals_of_derives hprod hg hg.start (α := α ++ [.nonTerminal i]) (φ := β) (β := [])
    (by simpa using hαβ)
  have hform := hβw.append (α ++ [.nonTerminal i]) []
  simp only [List.append_assoc, List.singleton_append, List.append_nil] at hform
  cases w with
  | nil => exact ⟨.endOfInput, α, hαβ.trans hform⟩
  | cons s w =>
    obtain ⟨k, rfl⟩ := hw s List.mem_cons_self
    exact ⟨.terminal k, g.start, hg.start, α, w, hαβ.trans hform⟩

theorem derives_nil_of_not_first {i : Nat} (hi : i < g.size) (hno : ∀ t, t ≠ .epsilon → ¬ g.FirstOf [.nonTerminal i] t)
    {α : List Symbol} (h : g.Derives [.nonTerminal i] α) : g.Derives α [] := by
  obtain ⟨w, hw, hαw⟩ := exists_terminals_of_derives hprod hg hi (α := []) (φ := α) (β := []) (by simpa using h)
  cases w with
  | nil => exact hαw
  | cons s w =>
    obtain ⟨k, rfl⟩ := hw s List.mem_cons_self
    exact absurd ⟨w, h.trans hαw⟩ (hno (.terminal k) fun e => nomatch e)

end

theorem cycle_lt_size {i : Nat} (h : TransGen g.LeftCorner i i) : i < g.size := by
  obtain ⟨r, hr, rfl, _⟩ := exists_rule_of_cycle h
  exact left_lt_size hr

/-- A grammar with a strict table, in which every nonterminal is reachable and
productive, is not left recursive. -/
theorem not_leftRecursive_of_strict {t : GrammarText} {g : Grammar} (h : t.read = .ok g)
    (hreach : ∀ i < g.size, g.Reachable i) (hprod : ∀ i < g.size, g.Productive i) :
    ∃ a strict, g.analysis? = some a ∧ g.strictTable? a = some strict ∧
      ∀ u, strict = .ok u → ∀ i, ¬ g.LeftRecursive i := by
  have hg := GrammarText.wellFormed_of_read h
  obtain ⟨a, claims, ha, hF, hP, _, _, hstrict, hmem, _⟩ := exists_tables hg.bodies hg.start
  refine ⟨a, _, ha, hstrict, fun u hu i hi => ?_⟩
  have hnil : ∀ {j α}, TransGen g.LeftCorner j j → g.Derives [.nonTerminal j] α → g.Derives α [] := by
    intro j α hj hα
    apply derives_nil_of_not_first hprod hg (cycle_lt_size hj) _ hα
    exact fun s hne hs => not_first_of_cycle hF hP hmem hu (hF.holds_iff.mpr hs) hne hj
  refine not_epsilon_of_cycle hF hmem hu ?_ ?_ (hF.holds_iff.mpr (hnil hi.cycle .refl)) hi.cycle
  · intro r hr hcycle
    exact hnil hcycle (derives_rule hr)
  · intro j hj
    obtain ⟨b, hb⟩ := exists_follow_of_reachable hprod hg (hreach j (cycle_lt_size hj))
    exact ⟨b, (hP.holds_iff hg hF).mpr hb⟩

/-- `A` and `B` derive the empty string only, and stand first on a right side. -/
theorem not_leftRecursive_of_strict_chain : chainText.read = .ok chainText.grammar ∧
    (∀ i < chainText.grammar.size, chainText.grammar.Reachable i) ∧
    (∀ i < chainText.grammar.size, chainText.grammar.Productive i) ∧
    (∃ a u, chainText.grammar.analysis? = some a ∧ chainText.grammar.strictTable? a = some (.ok u)) ∧
    ∀ i, ¬ chainText.grammar.LeftRecursive i := by
  have hread : chainText.read = .ok chainText.grammar :=
    GrammarText.read_eq_ok_iff.mpr ⟨by decide +kernel, rfl⟩
  have hsize : chainText.grammar.size = 3 := by decide +kernel
  have hS : chainText.grammar.Derives [.nonTerminal 0] [.nonTerminal 1, .terminal 0] :=
    .single (.expand (k := 0) (p := [.nonTerminal 1, .terminal 0]) [] [] (by decide +kernel))
  have hA : chainText.grammar.Derives [.nonTerminal 1] [.nonTerminal 2] :=
    .single (.expand (k := 0) (p := [.nonTerminal 2]) [] [] (by decide +kernel))
  have hB : chainText.grammar.Derives [.nonTerminal 2] [] :=
    .single (.expand (k := 0) (p := []) [] [] (by decide +kernel))
  have hSB : chainText.grammar.Derives [.nonTerminal 0] [.nonTerminal 2, .terminal 0] :=
    hS.trans (hA.append [] [.terminal 0])
  have hSa : chainText.grammar.Derives [.nonTerminal 0] [.terminal 0] := hSB.trans (hB.append [] [.terminal 0])
  have hnil : Terminals [] := fun s hs => absurd hs List.not_mem_nil
  have hreach : ∀ i < chainText.grammar.size, chainText.grammar.Reachable i := by
    intro i hi
    rcases (by omega : i = 0 ∨ i = 1 ∨ i = 2) with rfl | rfl | rfl
    · exact ⟨[], [], .refl⟩
    · exact ⟨[], [.terminal 0], hS⟩
    · exact ⟨[], [.terminal 0], hSB⟩
  have hprod : ∀ i < chainText.grammar.size, chainText.grammar.Productive i := by
    intro i hi
    rcases (by omega : i = 0 ∨ i = 1 ∨ i = 2) with rfl | rfl | rfl
    · exact ⟨[.terminal 0], fun s hs => ⟨0, List.mem_singleton.mp hs⟩, hSa⟩
    · exact ⟨[], hnil, hA.trans hB⟩
    · exact ⟨[], hnil, hB⟩
  obtain ⟨a, strict, ha, hstrict, hno⟩ := not_leftRecursive_of_strict hread hreach hprod
  obtain ⟨u, rfl⟩ := exists_ok_of_isOk ha hstrict (by decide +kernel)
  exact ⟨hread, hreach, hprod, ⟨a, u, ha, hstrict⟩, hno u rfl⟩

end

end Grammar

end Predictive
