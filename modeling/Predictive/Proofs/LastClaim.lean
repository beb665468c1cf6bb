import Mathlib.Order.Bounds.Defs
import Predictive.Proofs.Claims

/-!
# The last claim on a slot

A slot of a filled table holds an entry if a production claims it, and then the
entry of the greatest such production. If this production claims the slot both
by what it opens with and by what follows it, the entry is vanishing, since the
latter claim is made after the former. The sets need not be solved.
-/

namespace Predictive

/-! ## Claims written in order -/

theorem Entry.eq_or_before_of_le {e e' : Entry} (hle : e'.production ≤ e.production)
    (hvanishing : e'.production = e.production → e'.vanishing = true → e.vanishing = true) : e' = e ∨ e'.Before e := by
  obtain ⟨k, b⟩ := e
  obtain ⟨k', b'⟩ := e'
  rcases Nat.lt_or_eq_of_le hle with hlt | heq
  · exact Or.inr (Or.inl hlt)
  · simp only at heq
    subst heq
    cases b <;> cases b' <;> simp_all [Entry.Before]

namespace Table
variable {claims : List Cell} {slot : Slot}

theorem get?_fill_eq_none_iff :
    ((∅ : Table).fill claims).get? slot = none ↔ ∀ k b, (⟨slot, ⟨k, b⟩⟩ : Cell) ∉ claims := by
  constructor
  · intro h k b hc
    obtain ⟨_, _, _, _, _, hget, _⟩ := exists_get?_fill ∅ hc
    rw [h] at hget
    cases hget
  · intro h
    rw [get?_fill_of_forall_ne ∅, get?_empty]
    rintro ⟨s, k, b⟩ hc rfl
    exact h k b hc

theorem get?_fill_eq_some_iff (h : claims.Pairwise Cell.Precedes) {e : Entry} :
    ((∅ : Table).fill claims).get? slot = some e ↔
      IsGreatest {k | ∃ b, (⟨slot, ⟨k, b⟩⟩ : Cell) ∈ claims} e.production ∧
        (e.vanishing = true ↔ (⟨slot, ⟨e.production, true⟩⟩ : Cell) ∈ claims) := by
  rw [get?_fill_iff h]
  obtain ⟨k, b⟩ := e
  constructor
  · intro ⟨he, hlast⟩
    refine ⟨⟨⟨b, he⟩, ?_⟩, fun hb => ?_, fun hc => ?_⟩
    · rintro k' ⟨b', hc⟩
      rcases hlast _ hc with heq | hlt | ⟨heq, _⟩
      · exact Nat.le_of_eq (congrArg Entry.production heq)
      · exact Nat.le_of_lt hlt
      · exact Nat.le_of_eq heq
    · simp only at hb
      exact hb ▸ he
    · rcases hlast _ hc with heq | hlt | ⟨_, hno, _⟩
      · exact (congrArg Entry.vanishing heq).symm
      · exact absurd hlt (Nat.lt_irrefl _)
      · cases hno
  · intro ⟨⟨⟨b', hc⟩, hgreatest⟩, hvanishing⟩
    refine ⟨?_, fun e' he' => Entry.eq_or_before_of_le (hgreatest ⟨e'.vanishing, he'⟩) ?_⟩
    · cases b with
      | true => exact hvanishing.mp rfl
      | false =>
        cases b' with
        | true => exact absurd (hvanishing.mpr hc) (by simp)
        | false => exact hc
    · intro hk hb
      obtain ⟨k', b''⟩ := e'
      simp only at hk hb
      subst hk hb
      exact hvanishing.mpr he'

end Table

/-! ## Claims of productions -/

namespace Grammar

/-- Production `k` of nonterminal `i` can open with the lookahead `t`. -/
def ClaimsOpening (g : Grammar) (a : Analysis) (i : Nat) (t : Symbol) (k : Nat) : Prop :=
  ∃ p s, g.production? i k = some p ∧ a.first.firstOfSequence? p = some s ∧ t.isLookahead = true ∧ t ∈ s

/-- Production `k` of nonterminal `i` can vanish, and `t` can follow `i`. -/
def ClaimsFollowing (g : Grammar) (a : Analysis) (i : Nat) (t : Symbol) (k : Nat) : Prop :=
  ∃ p s after, g.production? i k = some p ∧ a.first.firstOfSequence? p = some s ∧ .epsilon ∈ s ∧
    a.follow.get? i = some after ∧ t ∈ after

section
variable {g : Grammar} (hg : g.BodiesInRange) {a : Analysis} (hfirst : a.first.size = g.size)
include hg hfirst

theorem exists_firstOf_production {i k : Nat} {p : Production} (hp : g.production? i k = some p) :
    ∃ s, a.first.firstOfSequence? p = some s ∧ ∀ t, t ∈ s ↔ Opens a.first.Holds p t := by
  apply a.first.exists_firstOfSequence?
  exact hfirst ▸ hg ⟨i, k, p⟩ (mem_rules.mpr hp)

theorem claimsOpening_iff {i k : Nat} {t : Symbol} : g.ClaimsOpening a i t k ↔
    ∃ r ∈ g.rules, r.Claims a.first.Holds a.follow.Holds ⟨⟨i, t⟩, ⟨k, false⟩⟩ := by
  constructor
  · rintro ⟨p, s, hp, hs, ht, hts⟩
    obtain ⟨s', hs', hmem⟩ := exists_firstOf_production hg hfirst hp
    rw [hs, Option.some.injEq] at hs'
    subst hs'
    exact ⟨⟨i, k, p⟩, mem_rules.mpr hp, .opening ht ((hmem t).mp hts)⟩
  · rintro ⟨⟨i, k, p⟩, hr, h⟩
    cases h with
    | opening ht h =>
      have hp := mem_rules.mp hr
      obtain ⟨s, hs, hmem⟩ := exists_firstOf_production hg hfirst hp
      exact ⟨p, s, hp, hs, ht, (hmem t).mpr h⟩

theorem claimsFollowing_iff {i k : Nat} {t : Symbol} : g.ClaimsFollowing a i t k ↔
    ∃ r ∈ g.rules, r.Claims a.first.Holds a.follow.Holds ⟨⟨i, t⟩, ⟨k, true⟩⟩ := by
  constructor
  · rintro ⟨p, s, after, hp, hs, hε, hafter, ht⟩
    obtain ⟨s', hs', hmem⟩ := exists_firstOf_production hg hfirst hp
    rw [hs, Option.some.injEq] at hs'
    subst hs'
    exact ⟨⟨i, k, p⟩, mem_rules.mpr hp, .following ((hmem _).mp hε) ⟨after, hafter, ht⟩⟩
  · rintro ⟨⟨i, k, p⟩, hr, h⟩
    cases h with
    | following hε h =>
      have hp := mem_rules.mp hr
      obtain ⟨s, hs, hmem⟩ := exists_firstOf_production hg hfirst hp
      obtain ⟨after, hafter, ht⟩ := h
      exact ⟨p, s, after, hp, hs, (hmem _).mpr hε, hafter, ht⟩

end

/-- Over any sets in range, a slot that no production claims is empty, and another
one holds the greatest production that claims it, vanishing if that can vanish
before the lookahead. -/
theorem last_claim_wins {g : Grammar} (hg : g.BodiesInRange) {a : Analysis} (hfirst : a.first.size = g.size)
    (hfollow : a.follow.size = g.size) : ∃ u, g.table? a = some u ∧ ∀ i t,
      (u.get? ⟨i, t⟩ = none ↔ ∀ k, ¬ (g.ClaimsOpening a i t k ∨ g.ClaimsFollowing a i t k)) ∧
      ∀ e, u.get? ⟨i, t⟩ = some e ↔
        IsGreatest {k | g.ClaimsOpening a i t k ∨ g.ClaimsFollowing a i t k} e.production ∧
          (e.vanishing = true ↔ g.ClaimsFollowing a i t e.production) := by
  obtain ⟨claims, hclaims, hmem, hpair⟩ := exists_claims? hg hfirst hfollow
  have hfollowing : ∀ i t k, (⟨⟨i, t⟩, ⟨k, true⟩⟩ : Cell) ∈ claims ↔ g.ClaimsFollowing a i t k :=
    fun i t k => (hmem _).trans (claimsFollowing_iff hg hfirst).symm
  have hclaim : ∀ i t k, (∃ b, (⟨⟨i, t⟩, ⟨k, b⟩⟩ : Cell) ∈ claims) ↔
      g.ClaimsOpening a i t k ∨ g.ClaimsFollowing a i t k := by
    intro i t k
    rw [Bool.exists_bool, hfollowing, hmem, claimsOpening_iff hg hfirst]
  refine ⟨(∅ : Table).fill claims, by rw [table?, hclaims, Option.map_some], fun i t => ⟨?_, fun e => ?_⟩⟩
  · rw [Table.get?_fill_eq_none_iff]
    simp only [← hclaim, not_exists]
  · rw [Table.get?_fill_eq_some_iff (hpair.imp Cell.Earlier.precedes), hfollowing]
    simp only [hclaim]

/-- `A` is a `B` or an `a`, and `B` is nothing or a `b`. -/
def sharedGrammar : Grammar :=
  .ofLists [("A", [[.nonTerminal 1], [.terminal 0]]), ("B", [[], [.terminal 1]])] ["a", "b"] 0

/-- No solution: FIRST of `B` has an `a` as well, and `A` is followed by `a` and `b`. -/
def sharedSets : Analysis where
  first := ⟨[∅, ((SymbolSet.singleton .epsilon).insert (.terminal 0)).insert (.terminal 1)]⟩
  follow := ⟨[(SymbolSet.singleton (.terminal 0)).insert (.terminal 1), ∅]⟩

/-- The production `B` loses `a` to the later `a`, and keeps `b`, which it claims in both ways, as vanishing. -/
theorem last_claim_wins_shared : ∃ u, sharedGrammar.table? sharedSets = some u ∧
    u.get? ⟨0, .terminal 0⟩ = some ⟨1, false⟩ ∧ ¬ sharedGrammar.ClaimsFollowing sharedSets 0 (.terminal 0) 1 ∧
    u.get? ⟨0, .terminal 1⟩ = some ⟨0, true⟩ ∧ sharedGrammar.ClaimsOpening sharedSets 0 (.terminal 1) 0 ∧
    sharedGrammar.ClaimsFollowing sharedSets 0 (.terminal 1) 0 ∧
    u.get? ⟨1, .endOfInput⟩ = none ∧ ∀ k, ¬ sharedGrammar.ClaimsFollowing sharedSets 1 .endOfInput k := by
  have hsymbols : ∀ r ∈ sharedGrammar.rules, ∀ s ∈ r.right, sharedGrammar.Has s := by decide
  have hg : sharedGrammar.BodiesInRange := fun r hr _ hi => hsymbols r hr _ hi
  obtain ⟨u, hu, hentry⟩ := last_claim_wins hg (a := sharedSets) rfl rfl
  have hcells : (sharedGrammar.table? sharedSets).map (fun u =>
      (u.get? ⟨0, .terminal 0⟩, u.get? ⟨0, .terminal 1⟩, u.get? ⟨1, .endOfInput⟩)) =
      some (some ⟨1, false⟩, some ⟨0, true⟩, none) := by decide +kernel
  rw [hu, Option.map_some, Option.some.injEq, Prod.mk.injEq, Prod.mk.injEq] at hcells
  obtain ⟨ha, hb, hend⟩ := hcells
  have hopening := ((hentry 0 (.terminal 0)).2 _).mp ha
  have hfollowing := ((hentry 0 (.terminal 1)).2 _).mp hb
  refine ⟨u, hu, ha, ?_, hb, ⟨_, _, rfl, rfl, rfl, by decide⟩, hfollowing.2.mp rfl, hend, fun k hk => ?_⟩
  · simpa using hopening.2
  · exact (hentry 1 .endOfInput).1.mp hend k (Or.inr hk)

end Grammar

end Predictive
