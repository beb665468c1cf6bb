import Mathlib.Data.List.Nodup
import Predictive.Proofs.Prediction

/-!
# Accepted tables are written once

A strict fill lets a production write a cell twice, first because its right side
opens with the lookahead and then because it can vanish. In an accepted table
that does not happen: the first of the two claims comes from a nonterminal that
can vanish, inside the right side, and the lookahead follows that nonterminal as
well. By induction along the passes for FIRST, two productions of a nonterminal
further down would claim one cell.
-/

namespace Predictive

namespace Table

section
variable {claims : List Cell} (h : (claims.map Cell.slot).Nodup)
include h

theorem get?_fill_of_nodup {c : Cell} (hc : c ∈ claims) : ((∅ : Table).fill claims).get? c.slot = some c.entry := by
  obtain ⟨l, d, m, e, hslot, hget, _⟩ := exists_get?_fill ∅ hc
  have hd : d ∈ claims := by simp [e]
  rw [hget, List.inj_on_of_nodup_map h hd hc hslot]

theorem size_fill_of_nodup : ((∅ : Table).fill claims).size = claims.length := by
  apply List.Perm.length_eq
  have hcells : (fill ∅ claims).cells.Nodup := List.Nodup.of_map _ (fill ∅ claims).ascending.nodup_map
  rw [List.perm_ext_iff_of_nodup hcells (List.Nodup.of_map _ h)]
  intro c
  rw [mem_cells]
  constructor
  · intro hc
    exact mem_of_get?_fill hc
  · intro hc
    exact get?_fill_of_nodup h hc

end

end Table

namespace Grammar

theorem IsFirst.isLookahead {g : Grammar} {first : SetFamily} (h : g.IsFirst first) {i : Nat} :
    ∀ {t : Symbol}, first.Holds i t → t ≠ .epsilon → t.isLookahead = true
  | .epsilon, _, hne => absurd rfl hne
  | .nonTerminal _, ht, _ => (h.holds_iff.mp ht).elim
  | .terminal _, _, _ => rfl
  | .endOfInput, _, _ => rfl

theorem IsFollow.ne_epsilon {g : Grammar} {first follow : SetFamily} (h : g.IsFollow first follow) {i : Nat}
    {t : Symbol} (ht : follow.Holds i t) : t ≠ .epsilon := by
  refine h.least (fun _ t => t ≠ .epsilon) ⟨?_, ?_, ?_⟩ i t ht
  · exact fun e => nomatch e
  · exact fun _ _ _ _ hne => hne
  · exact fun _ _ _ _ hne => hne

/-- A sequence that vanishes and opens with a symbol has a nonterminal that does
so, between parts that vanish. -/
theorem exists_nonTerminal_of_opens {F P : Facts} {α : Production} {t : Symbol} (hε : Opens F α .epsilon)
    (ht : Opens P α t) (hlook : t.isLookahead = true) :
    ∃ u i v, α = u ++ .nonTerminal i :: v ∧ F i .epsilon ∧ Opens F v .epsilon ∧ P i t := by
  have hne := ne_epsilon_of_isLookahead hlook
  obtain ⟨u, s, v, rfl, _, hs⟩ := ht.split hne
  rcases (opens_append u (s :: v)).mp hε with ⟨_, hno⟩ | ⟨_, hsv⟩
  · exact absurd rfl hno
  rcases hs with rfl | ⟨i, rfl, hi⟩
  · rw [opens_token hlook] at hsv
    exact absurd hsv.symm hne
  · rcases hsv with ⟨_, hno⟩ | ⟨hi', hv⟩
    · exact absurd rfl hno
    · exact ⟨u, i, v, rfl, hi', hv, hi⟩

theorem has_of_claims {g : Grammar} {first follow : SetFamily} (hF : g.IsFirst first) (hP : g.IsFollow first follow)
    (hg : g.InRange) {r : Rule} (hr : r ∈ g.rules) {c : Cell} (hc : r.Claims first.Holds follow.Holds c) :
    c.slot.row < g.size ∧ g.Has c.slot.lookahead := by
  have hfirst : ∀ i t, first.Holds i t → g.Has t := fun _ _ => hF.has hg.symbols
  have hfollow : ∀ i t, follow.Holds i t → g.Has t := fun _ _ => hP.has hg.symbols hfirst
  exact ⟨hc.row ▸ left_lt_size hr, hc.has (hg.symbols r hr) hfirst hfollow⟩

/-! ## Claims under a strict fill that ends well -/

section
variable {g : Grammar} {F P : Facts} {claims : List Cell} (hmem : ∀ c, c ∈ claims ↔ ∃ r ∈ g.rules, r.Claims F P c)
  {u : Table} (hu : (∅ : Table).fillStrictly claims = .ok u)
include hmem hu

theorem exists_rule_of_get? {slot : Slot} {e : Entry} (he : u.get? slot = some e) :
    ∃ r ∈ g.rules, r.Claims F P ⟨slot, e⟩ := by
  rw [Table.eq_fill_of_fillStrictly hu] at he
  exact (hmem _).mp (Table.mem_of_get?_fill he)

theorem rule_eq_of_claims {r q : Rule} (hr : r ∈ g.rules) (hq : q ∈ g.rules) {c d : Cell} (hc : r.Claims F P c)
    (hd : q.Claims F P d) (hslot : c.slot = d.slot) : r = q := by
  have hprod := Table.production_eq_of_fillStrictly hu ((hmem c).mpr ⟨r, hr, hc⟩) ((hmem d).mpr ⟨q, hq, hd⟩) hslot
  have hleft : r.left = q.left := by rw [← hc.row, ← hd.row, hslot]
  have hindex : r.index = q.index := by rw [← hc.production, ← hd.production, hprod]
  have hright := mem_rules.mp hq
  rw [← hleft, ← hindex, mem_rules.mp hr, Option.some.injEq] at hright
  cases r
  cases q
  simp_all

end

section
variable {g : Grammar} {first follow : SetFamily} (hF : g.IsFirst first) (hP : g.IsFollow first follow)
  {claims : List Cell} (hmem : ∀ c, c ∈ claims ↔ ∃ r ∈ g.rules, r.Claims first.Holds follow.Holds c)
  {u : Table} (hu : (∅ : Table).fillStrictly claims = .ok u)
include hF hP hmem hu

/-- If a strict fill ends well, FIRST and FOLLOW of a nonterminal that can vanish are disjoint. -/
theorem not_follow_of_first {i : Nat} {t : Symbol} (ht : first.Holds i t) (hne : t ≠ .epsilon)
    (hε : first.Holds i .epsilon) : ¬ follow.Holds i t := by
  have key : first.Holds ≤ fun i t => t ≠ .epsilon → first.Holds i .epsilon → ¬ follow.Holds i t := by
    refine hF.induction ?_
    intro r hr t ht ih hne hε hfollow
    obtain ⟨q, hq, hleft, hqε⟩ := hF.exists_rule hε
    have hlook : t.isLookahead = true := hF.isLookahead (hF.closed r hr t ht) hne
    -- the rule that opens with `t` and the one that vanishes claim the cell of `t`
    have hrq : r = q := rule_eq_of_claims hmem hu hr hq (.opening hlook ht) (.following hqε (hleft ▸ hfollow))
      (congrArg (Slot.mk · t) hleft.symm)
    subst hrq
    obtain ⟨α, j, v, hr', hj, hv, hjt⟩ := exists_nonTerminal_of_opens hqε ih hlook
    have ho : (⟨r.left, j, v⟩ : Occurrence) ∈ g.occurrences := mem_occurrences.mpr ⟨r, hr, rfl, α, hr'⟩
    exact hjt hne hj (hP.closed.inherited _ ho hv t hfollow)
  exact key i t ht hne hε

theorem nodup_slots (hpair : claims.Pairwise Cell.Precedes) : (claims.map Cell.slot).Nodup := by
  refine List.pairwise_map.mpr (hpair.imp_of_mem ?_)
  intro c d hc hd hcd hslot
  have hprod := Table.production_eq_of_fillStrictly hu hc hd hslot
  rcases hcd (congrArg Slot.row hslot) with hlt | ⟨_, hvanishing⟩
  · omega
  obtain ⟨hc', hd'⟩ := hvanishing hslot
  obtain ⟨r, hr, hrc⟩ := (hmem c).mp hc
  obtain ⟨q, hq, hqd⟩ := (hmem d).mp hd
  cases hrc with
  | following _ _ => cases hc'
  | @opening t hlook ht =>
    cases hqd with
    | opening _ _ => cases hd'
    | @following t' hε hfollow =>
      obtain ⟨hrow, rfl⟩ := Slot.mk.inj hslot
      refine not_follow_of_first hF hP hmem hu (hF.closed r hr t ht) (hP.ne_epsilon hfollow) ?_ (hrow ▸ hfollow)
      exact hrow ▸ hF.closed q hq _ hε

theorem has_of_get? (hg : g.InRange) {slot : Slot} {e : Entry} (he : u.get? slot = some e) :
    slot.row < g.size ∧ g.Has slot.lookahead := by
  obtain ⟨r, hr, hc⟩ := exists_rule_of_get? hmem hu he
  exact has_of_claims hF hP hg hr hc

theorem vanishing_iff {slot : Slot} {e : Entry} (he : u.get? slot = some e) :
    slot.row < g.size ∧ (e.vanishing = true ↔ ¬ first.Holds slot.row slot.lookahead) := by
  obtain ⟨r, hr, hc⟩ := exists_rule_of_get? hmem hu he
  cases hc with
  | @opening t hlook ht =>
    refine ⟨left_lt_size hr, ?_⟩
    simpa using hF.closed r hr t ht
  | @following t hε hfollow =>
    have hno : ¬ first.Holds r.left t := fun ht =>
      not_follow_of_first hF hP hmem hu ht (hP.ne_epsilon hfollow) (hF.closed r hr _ hε) hfollow
    refine ⟨left_lt_size hr, ?_⟩
    simpa using hno

end

theorem exists_ok_of_isOk {g : Grammar} {a : Analysis} {strict : Except Conflict Table} (ha : g.analysis? = some a)
    (hstrict : g.strictTable? a = some strict) (h : (g.analysis?.bind g.strictTable?).map Except.isOk = some true) :
    ∃ u, strict = .ok u := by
  rw [ha, Option.bind_some, hstrict, Option.map_some, Option.some.injEq] at h
  cases strict with
  | error c => cases h
  | ok u => exact ⟨u, rfl⟩

/-- In an accepted table no cell was written twice, and a cell vanishes if its
lookahead is not in FIRST of the row. So the strict fill fails if a nonterminal
derives the empty string and its FIRST and FOLLOW share a lookahead. -/
theorem strict_written_once {g : Grammar} (hg : g.InRange) :
    ∃ a claims strict, g.analysis? = some a ∧ g.claims? a = some claims ∧ g.strictTable? a = some strict ∧
      (∀ u, strict = .ok u → (claims.map Cell.slot).Nodup ∧ u.size = claims.length ∧
        ∀ slot e, u.get? slot = some e →
          ∃ s, a.first.get? slot.row = some s ∧ (e.vanishing = true ↔ ¬ slot.lookahead ∈ s)) ∧
      ∀ i s s', a.first.get? i = some s → a.follow.get? i = some s' → g.Derives [.nonTerminal i] [] →
        ∀ t, t.isLookahead = true → t ∈ s → t ∈ s' → ∃ c, strict = .error c := by
  obtain ⟨a, claims, ha, hF, hP, hclaims, _, hstrict, hmem, hpair⟩ := exists_tables hg.bodies hg.start
  refine ⟨a, claims, _, ha, hclaims, hstrict, fun u hu => ?_, fun i s s' hs hs' hε t hlook ht ht' => ?_⟩
  · have hnodup := nodup_slots hF hP hmem hu hpair
    refine ⟨hnodup, ?_, fun slot e he => ?_⟩
    · rw [Table.eq_fill_of_fillStrictly hu]
      exact Table.size_fill_of_nodup hnodup
    · obtain ⟨hrow, hvanishing⟩ := vanishing_iff hF hP hmem hu he
      obtain ⟨s, hs⟩ := SetFamily.exists_get? (hF.size ▸ hrow)
      refine ⟨s, hs, ?_⟩
      rw [hvanishing, SetFamily.holds_iff hs]
  · cases hfill : (∅ : Table).fillStrictly claims with
    | error c => exact ⟨c, rfl⟩
    | ok u =>
      have hne := ne_epsilon_of_isLookahead hlook
      have hfirst := (SetFamily.holds_iff hs).mpr ht
      have hfollow := (SetFamily.holds_iff hs').mpr ht'
      exact absurd hfollow (not_follow_of_first hF hP hmem hfill hfirst hne (hF.holds_iff.mpr hε))

end Grammar

/-- `A` vanishes through `B`, and `a` follows it. -/
def chainText : GrammarText where
  rules := [⟨"S", ["A a"]⟩, ⟨"A", ["B"]⟩, ⟨"B", ["ε"]⟩]
  start := "S"
  terminals := none

/-- With `a` on a right side of `B`, the one production of `A` claims a cell twice. -/
def chainGrammar : Grammar :=
  .ofLists [("S", [[.nonTerminal 1, .terminal 0]]), ("A", [[.nonTerminal 2]]), ("B", [[], [.terminal 0]])] ["a"] 0

namespace Grammar

theorem strict_written_once_chain :
    (∃ a claims u, chainText.grammar.analysis? = some a ∧ chainText.grammar.claims? a = some claims ∧
      chainText.grammar.strictTable? a = some (.ok u) ∧ (claims.map Cell.slot).Nodup ∧ u.size = claims.length) ∧
    chainText.grammar.addProduction? 2 [.terminal 0] = some chainGrammar ∧
    ∃ a c, chainGrammar.analysis? = some a ∧ chainGrammar.strictTable? a = some (.error c) := by
  have hread : chainText.read = .ok chainText.grammar :=
    GrammarText.read_eq_ok_iff.mpr ⟨by decide +kernel, rfl⟩
  have hrange : chainText.grammar.InRange := (GrammarText.wellFormed_of_read hread).toInRange
  have hadd : chainText.grammar.addProduction? 2 [.terminal 0] = some chainGrammar := by decide +kernel
  have hrange' : chainGrammar.InRange := hrange.addProduction? hadd (by decide +kernel)
  refine ⟨?_, hadd, ?_⟩
  · obtain ⟨a, claims, strict, ha, hclaims, hstrict, hok, _⟩ := strict_written_once hrange
    have hisOk : ((chainText.grammar.analysis?.bind chainText.grammar.strictTable?).map
        Except.isOk) = some true := by decide +kernel
    rw [ha, Option.bind_some, hstrict, Option.map_some, Option.some.injEq] at hisOk
    cases strict with
    | error c => cases hisOk
    | ok u =>
      obtain ⟨hnodup, hsize, _⟩ := hok u rfl
      exact ⟨a, claims, u, ha, hclaims, hstrict, hnodup, hsize⟩
  · obtain ⟨a, claims, strict, ha, _, hstrict, _, hconflict⟩ := strict_written_once hrange'
    have hA : chainGrammar.Derives [.nonTerminal 1] [.nonTerminal 2] :=
      .single (.expand (k := 0) (p := [.nonTerminal 2]) [] [] (by decide +kernel))
    have hB : chainGrammar.Derives [.nonTerminal 2] [] :=
      .single (.expand (k := 0) (p := []) [] [] (by decide +kernel))
    have hfirst : (chainGrammar.analysis?.bind (·.first.get? 1)).map SymbolSet.toList =
        some [.terminal 0, .epsilon] := by decide +kernel
    have hfollow : (chainGrammar.analysis?.bind (·.follow.get? 1)).map SymbolSet.toList =
        some [.terminal 0] := by decide +kernel
    rw [ha, Option.bind_some] at hfirst hfollow
    obtain ⟨s, hs, hs'⟩ := Option.map_eq_some_iff.mp hfirst
    obtain ⟨r, hr, hr'⟩ := Option.map_eq_some_iff.mp hfollow
    have hmem : Symbol.terminal 0 ∈ s.toList := by simp [hs']
    have hmem' : Symbol.terminal 0 ∈ r.toList := by simp [hr']
    obtain ⟨c, rfl⟩ := hconflict 1 s r hs hr (hA.trans hB) (.terminal 0) rfl hmem hmem'
    exact ⟨a, c, ha, hstrict⟩

end Grammar

end Predictive
