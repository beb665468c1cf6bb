import Predictive.Proofs.LastClaim
import Predictive.Proofs.LeastFollow
import Predictive.Proofs.Nullability
import Predictive.Proofs.Strict

/-!
# Which cells are filled

A cell is filled if a production of its row claims it. Over solved sets the
productions of a row claim together what the sets of the row tell: a lookahead
that opens the nonterminal, or one that follows it if it can vanish. Larger sets
and more productions add claims and take none away. So a filled cell stays
filled, by the same production or a later one, and no conflict is lost.
-/

namespace Predictive

/-! ## Fills with more claims -/

/-- Where `t` has an entry, `u` has one of the same production or a later one. -/
def Table.Below (t u : Table) : Prop :=
  ∀ slot e, t.get? slot = some e → ∃ e', u.get? slot = some e' ∧ e.production ≤ e'.production

namespace Table
variable {l m : List Cell}

theorem exists_entry_iff {slot : Slot} :
    (∃ e, ((∅ : Table).fill l).get? slot = some e) ↔ ∃ c ∈ l, c.slot = slot := by
  constructor
  · intro ⟨e, he⟩
    exact ⟨⟨slot, e⟩, mem_of_get?_fill he, rfl⟩
  · intro ⟨c, hc, hslot⟩
    obtain ⟨_, d, _, _, _, hget, _⟩ := exists_get?_fill ∅ hc
    exact ⟨d.entry, hslot ▸ hget⟩

theorem fill_below (hlm : l ⊆ m) (hm : m.Pairwise Cell.Precedes) : ((∅ : Table).fill l).Below ((∅ : Table).fill m) := by
  intro slot e he
  exact exists_entry_ge hm (hlm (mem_of_get?_fill he))

theorem exists_fillStrictly_of_subset (hlm : l ⊆ m) (hm : ∃ u, (∅ : Table).fillStrictly m = .ok u) :
    ∃ u, (∅ : Table).fillStrictly l = .ok u := by
  rw [exists_fillStrictly_empty_iff] at hm ⊢
  intro c hc d hd
  exact hm c (hlm hc) d (hlm hd)

end Table

theorem Rule.Claims.mono {r : Rule} {F G P Q : Facts} (hF : F ≤ G) (hP : P ≤ Q) {c : Cell} (h : r.Claims F P c) :
    r.Claims G Q c := by
  cases h with
  | opening ht h => exact .opening ht (h.mono hF)
  | following hε h => exact .following (hε.mono hF) (hP _ _ h)

namespace Grammar

/-! ## Rows -/

theorem IsFirst.holds_iff_exists_rule {g : Grammar} {first : SetFamily} (h : g.IsFirst first) {i : Nat} {a : Symbol} :
    first.Holds i a ↔ ∃ r ∈ g.rules, r.left = i ∧ Opens first.Holds r.right a := by
  constructor
  · exact h.exists_rule
  · intro ⟨r, hr, hleft, ha⟩
    exact hleft ▸ h.closed r hr a ha

/-- What the rules of a row claim together. -/
theorem IsFirst.exists_claims_iff {g : Grammar} {first : SetFamily} (h : g.IsFirst first) {P : Facts} {i : Nat}
    {t : Symbol} (ht : t.isLookahead = true) :
    (∃ r ∈ g.rules, ∃ c, r.Claims first.Holds P c ∧ c.slot = ⟨i, t⟩) ↔
      first.Holds i t ∨ first.Holds i .epsilon ∧ P i t := by
  simp only [h.holds_iff_exists_rule]
  constructor
  · intro ⟨r, hr, c, hc, hslot⟩
    cases hc with
    | opening _ ha =>
      cases hslot
      exact Or.inl ⟨r, hr, rfl, ha⟩
    | following hε hP =>
      cases hslot
      exact Or.inr ⟨⟨r, hr, rfl, hε⟩, hP⟩
  · intro hrow
    rcases hrow with ⟨r, hr, hleft, ha⟩ | ⟨⟨r, hr, hleft, hε⟩, hP⟩
    · exact ⟨r, hr, _, .opening ht ha, by rw [hleft]⟩
    · exact ⟨r, hr, _, .following hε (hleft ▸ hP), by rw [hleft]⟩

/-- A cell of the solved table is filled if its lookahead is in FIRST of the
nonterminal, or is in FOLLOW of a nonterminal that vanishes. -/
theorem filled_iff {g : Grammar} (hg : g.BodiesInRange) (hstart : g.start < g.size) :
    ∃ a u known, g.analysis? = some a ∧ g.table? a = some u ∧ g.nullable? = some known ∧
      ∀ i < g.size, ∃ first follow vanishes, a.first.get? i = some first ∧ a.follow.get? i = some follow ∧
        known[i]? = some vanishes ∧ ∀ t, t.isLookahead = true →
          ((∃ e, u.get? ⟨i, t⟩ = some e) ↔ t ∈ first ∨ vanishes = true ∧ t ∈ follow) := by
  obtain ⟨a, claims, ha, hF, hP, _, htable, _, hmem, _⟩ := exists_tables hg hstart
  obtain ⟨known, hknown, hsize, hflags⟩ := exists_flags hg hF
  refine ⟨a, _, known, ha, htable, hknown, fun i hi => ?_⟩
  obtain ⟨first, hfirst⟩ := SetFamily.exists_get? (f := a.first) (hF.size ▸ hi)
  obtain ⟨follow, hfollow⟩ := SetFamily.exists_get? (f := a.follow) (hP.size ▸ hi)
  have hi' : known[i]? = some known[i] := List.getElem?_eq_getElem (hsize ▸ hi)
  refine ⟨first, follow, known[i], hfirst, hfollow, hi', fun t ht => ?_⟩
  have hclaims : (∃ c ∈ claims, c.slot = ⟨i, t⟩) ↔
      ∃ r ∈ g.rules, ∃ c, r.Claims a.first.Holds a.follow.Holds c ∧ c.slot = ⟨i, t⟩ := by
    simp only [hmem]
    tauto
  have hvanishes : known[i] = true ↔ a.first.Holds i .epsilon := by
    rw [← hflags, hi', Option.some.injEq]
  rw [Table.exists_entry_iff, hclaims, hF.exists_claims_iff ht, SetFamily.holds_iff hfirst,
    SetFamily.holds_iff hfollow, hvanishes]

def pairSets : Analysis where
  first := ⟨[.singleton (.terminal 0), .singleton (.terminal 0), .insert (.singleton .epsilon) (.terminal 1)]⟩
  follow := ⟨[.singleton .endOfInput, .insert (.singleton .endOfInput) (.terminal 1), .singleton .endOfInput]⟩

/-- `B` vanishes, so its row has the cell of the end mark; `A` is followed by the
end mark as well, but does not vanish. -/
theorem filled_iff_pair : ∃ a u, pairGrammar.analysis? = some a ∧ pairGrammar.table? a = some u ∧
    (∃ e, u.get? ⟨2, .endOfInput⟩ = some e) ∧ a.follow.Holds 1 .endOfInput ∧
    ¬ ∃ e, u.get? ⟨1, .endOfInput⟩ = some e := by
  have hg : pairGrammar.InRange := ⟨by decide, by decide⟩
  obtain ⟨a, u, known, ha, hu, hknown, hrows⟩ := filled_iff hg.bodies hg.start
  have hsets : pairGrammar.analysis? = some pairSets := by decide +kernel
  have hflags : pairGrammar.nullable? = some [false, false, true] := by decide +kernel
  cases ha.symm.trans hsets
  cases hknown.symm.trans hflags
  obtain ⟨first, follow, _, hfirst, hfollow, hvanishes, hA⟩ := hrows 1 (by decide)
  cases hfirst
  cases hfollow
  cases hvanishes
  obtain ⟨first, follow, _, hfirst, hfollow, hvanishes, hB⟩ := hrows 2 (by decide)
  cases hfirst
  cases hfollow
  cases hvanishes
  refine ⟨_, u, hsets, hu, (hB _ rfl).mpr (by decide), ⟨_, rfl, by decide⟩, (hA _ rfl).not.mpr (by decide)⟩

/-! ## More productions -/

/-- `h` has the nonterminals and the start of `g` and all its productions, under the same numbers. -/
structure Extends (h g : Grammar) : Prop where
  size : h.size = g.size
  start : h.start = g.start
  rules : g.rules ⊆ h.rules

/-- Adds productions one by one, each after the others of its nonterminal. -/
def addProductions? (g : Grammar) (added : List (Nat × Production)) : Option Grammar :=
  added.foldlM (fun g x => g.addProduction? x.1 x.2) g

/-- Leaves the first `kept i` productions of every nonterminal `i`. -/
def keepFirst (g : Grammar) (kept : Nat → Nat) : Grammar :=
  { g with
    nonTerminals := g.nonTerminals.map fun a => { a with productions := a.productions.take (kept a.index) }
    indexed := g.indexed.map fun _ => rfl }

theorem production?_keepFirst {g : Grammar} {kept : Nat → Nat} {i k : Nat} {p : Production}
    (h : (g.keepFirst kept).production? i k = some p) : g.production? i k = some p := by
  obtain ⟨b, hb, hp⟩ := Option.bind_eq_some_iff.mp h
  unfold nonTerminal? keepFirst at hb
  rw [List.getElem?_map] at hb
  obtain ⟨a, ha, rfl⟩ := Option.map_eq_some_iff.mp hb
  refine Option.bind_eq_some_iff.mpr ⟨a, ha, ?_⟩
  simp only [List.getElem?_take] at hp
  split at hp
  · exact hp
  · cases hp

theorem extends_keepFirst (g : Grammar) (kept : Nat → Nat) : g.Extends (g.keepFirst kept) where
  size := by simp [size, keepFirst]
  start := rfl
  rules _ hr := mem_rules.mpr (production?_keepFirst (mem_rules.mp hr))

theorem exists_addProduction? {g : Grammar} (hg : g.BodiesInRange) {i : Nat} (hi : i < g.size) {p : Production}
    (hp : p.Within g.size) : ∃ h, g.addProduction? i p = some h ∧ h.Extends g ∧ h.BodiesInRange := by
  have hlt : i < g.nonTerminals.length := hi
  obtain ⟨h, hadd⟩ : ∃ h, g.addProduction? i p = some h := by
    unfold addProduction? nonTerminal?
    rw [List.getElem?_eq_getElem hlt]
    exact ⟨_, rfl⟩
  have hsize := size_addProduction? hadd
  refine ⟨h, hadd, ⟨hsize, start_addProduction? hadd, rules_subset_addProduction? hadd⟩, fun r hr j hj => ?_⟩
  rw [hsize]
  rcases mem_rules_addProduction? hadd hr with hr | e
  · exact hg r hr j hj
  · exact hp j (e ▸ hj)

theorem exists_addProductions? {added : List (Nat × Production)} {g : Grammar} (hg : g.BodiesInRange)
    (hadded : ∀ x ∈ added, x.1 < g.size ∧ x.2.Within g.size) :
    ∃ h, g.addProductions? added = some h ∧ h.Extends g ∧ h.BodiesInRange := by
  induction added generalizing g with
  | nil => exact ⟨g, rfl, ⟨rfl, rfl, fun _ hr => hr⟩, hg⟩
  | cons x added ih =>
    obtain ⟨⟨hi, hp⟩, hlater⟩ := List.forall_mem_cons.mp hadded
    obtain ⟨m, hm, hmg, hmrange⟩ := exists_addProduction? hg hi hp
    obtain ⟨h, hh, hhm, hrange⟩ := ih hmrange (hmg.size ▸ hlater)
    refine ⟨h, ?_, ⟨hhm.size.trans hmg.size, hhm.start.trans hmg.start, fun _ hr => hhm.rules (hmg.rules hr)⟩, hrange⟩
    unfold addProductions?
    rw [List.foldlM_cons, hm]
    exact hh

/-! ## Larger sets and more productions -/

namespace Extends
variable {g h : Grammar} (hext : h.Extends g) (hh : h.BodiesInRange)
include hext hh

theorem bodiesInRange : g.BodiesInRange := fun r hr i hi => hext.size ▸ hh r (hext.rules hr) i hi

theorem exists_claims? {a b : Analysis} (hfirst : g.size ≤ b.first.size) (hfollow : g.size ≤ b.follow.size)
    (hle : a.first ≤ b.first) (hle' : a.follow ≤ b.follow) :
    ∃ l m, g.claims? a = some l ∧ h.claims? b = some m ∧ l ⊆ m ∧ m.Pairwise Cell.Precedes := by
  obtain ⟨hsize, hF⟩ := SetFamily.le_iff_holds.mp hle
  obtain ⟨hsize', hP⟩ := SetFamily.le_iff_holds.mp hle'
  obtain ⟨l, hl, hmem, _⟩ :=
    Grammar.exists_claims?_of_le (hext.bodiesInRange hh) (hfirst.trans hsize.ge) (hfollow.trans hsize'.ge)
  obtain ⟨m, hm, hmem', hpair⟩ :=
    Grammar.exists_claims?_of_le hh (hext.size.trans_le hfirst) (hext.size.trans_le hfollow)
  refine ⟨l, m, hl, hm, fun c hc => ?_, hpair.imp Cell.Earlier.precedes⟩
  obtain ⟨r, hr, hrc⟩ := (hmem c).mp hc
  exact (hmem' c).mpr ⟨r, hext.rules hr, hrc.mono hF hP⟩

theorem exists_tables {a b : Analysis} (hfirst : g.size ≤ b.first.size) (hfollow : g.size ≤ b.follow.size)
    (hle : a.first ≤ b.first) (hle' : a.follow ≤ b.follow) :
    (∃ t u, g.table? a = some t ∧ h.table? b = some u ∧ t.Below u) ∧
    ∃ s s', g.strictTable? a = some s ∧ h.strictTable? b = some s' ∧ ((∃ u, s' = .ok u) → ∃ t, s = .ok t) := by
  obtain ⟨l, m, hl, hm, hlm, hpair⟩ := hext.exists_claims? hh hfirst hfollow hle hle'
  refine ⟨⟨_, _, ?_, ?_, Table.fill_below hlm hpair⟩, _, _, ?_, ?_, Table.exists_fillStrictly_of_subset hlm⟩
  · rw [table?, hl, Option.map_some]
  · rw [table?, hm, Option.map_some]
  · rw [strictTable?, hl, Option.map_some]
  · rw [strictTable?, hm, Option.map_some]

theorem exists_analysis? (hstart : h.start < h.size) :
    ∃ a b, g.analysis? = some a ∧ h.analysis? = some b ∧ b.first.size = g.size ∧ b.follow.size = g.size ∧
      a.first ≤ b.first ∧ a.follow ≤ b.follow := by
  have hstart' : g.start < g.size := hext.size ▸ hext.start ▸ hstart
  obtain ⟨a, ha, hF, hP⟩ := Grammar.exists_analysis? (hext.bodiesInRange hh) hstart'
  obtain ⟨b, hb, hF', hP'⟩ := Grammar.exists_analysis? hh hstart
  have hfirst : a.first.Holds ≤ b.first.Holds := hF.least _ (hF'.closed.of_rules_subset hext.rules)
  have hfollow : a.follow.Holds ≤ b.follow.Holds :=
    hP.least _ ((hP'.closed.of_rules_subset hext.rules hext.start).of_le hfirst)
  have hsize := hF'.size.trans hext.size
  have hsize' := hP'.size.trans hext.size
  refine ⟨a, b, ha, hb, hsize, hsize', SetFamily.le_iff_holds.mpr ⟨hF.size.trans hsize.symm, hfirst⟩, ?_⟩
  exact SetFamily.le_iff_holds.mpr ⟨hP.size.trans hsize'.symm, hfollow⟩

end Extends

/-- Larger sets and more productions fill no cell less and with no earlier
production, and a strict fill that succeeds for them succeeds without them. In
particular the first productions of a grammar with a strict table have one. -/
theorem tables_grow {g : Grammar} (hg : g.BodiesInRange) (hstart : g.start < g.size) :
    (∀ added : List (Nat × Production), (∀ x ∈ added, x.1 < g.size ∧ x.2.Within g.size) →
      ∃ h, g.addProductions? added = some h ∧ ∀ a b : Analysis, g.size ≤ b.first.size → g.size ≤ b.follow.size →
        a.first ≤ b.first → a.follow ≤ b.follow →
          (∃ t u, g.table? a = some t ∧ h.table? b = some u ∧ t.Below u) ∧
          ∃ s s', g.strictTable? a = some s ∧ h.strictTable? b = some s' ∧
            ((∃ u, s' = .ok u) → ∃ t, s = .ok t)) ∧
    ∀ kept : Nat → Nat, ∃ a b s s', (g.keepFirst kept).analysis? = some a ∧ g.analysis? = some b ∧
      (g.keepFirst kept).strictTable? a = some s ∧ g.strictTable? b = some s' ∧
        ((∃ u, s' = .ok u) → ∃ t, s = .ok t) := by
  constructor
  · intro added hadded
    obtain ⟨h, hadd, hext, hrange⟩ := exists_addProductions? hg hadded
    exact ⟨h, hadd, fun a b hfirst hfollow => hext.exists_tables hrange hfirst hfollow⟩
  · intro kept
    have hext := g.extends_keepFirst kept
    obtain ⟨a, b, ha, hb, hfirst, hfollow, hle, hle'⟩ := hext.exists_analysis? hg hstart
    obtain ⟨_, s, s', hs, hs', hok⟩ := hext.exists_tables hg hfirst.ge hfollow.ge hle hle'
    exact ⟨a, b, s, s', ha, hb, hs, hs', hok⟩

/-- No solution: `B` is to vanish, and to open with an `a` or a `b`. -/
def wideSets : Analysis where
  first := ⟨[∅, ∅, ((SymbolSet.singleton .epsilon).insert (.terminal 0)).insert (.terminal 1)]⟩
  follow := .empty 3

/-- If `A` may be a `B` as well, that production takes the cell of `a` from the one before it. Without
the empty production of `B` the strict fill succeeds as it does with it. -/
theorem tables_grow_pair :
    (∃ h t u, pairGrammar.addProductions? [(1, [.nonTerminal 2])] = some h ∧
      pairGrammar.table? ⟨.empty 3, .empty 3⟩ = some t ∧ h.table? wideSets = some u ∧ t.Below u ∧
      t.get? ⟨1, .terminal 0⟩ = some ⟨0, false⟩ ∧ u.get? ⟨1, .terminal 0⟩ = some ⟨1, false⟩) ∧
    ∃ a b t u, (pairGrammar.keepFirst fun _ => 1).analysis? = some a ∧ pairGrammar.analysis? = some b ∧
      (pairGrammar.keepFirst fun _ => 1).strictTable? a = some (.ok t) ∧ pairGrammar.strictTable? b = some (.ok u) := by
  have hg : pairGrammar.InRange := ⟨by decide, by decide⟩
  have hwithin : Production.Within pairGrammar.size [.nonTerminal 2] := by
    intro i hi
    have hsize : pairGrammar.size = 3 := rfl
    simp_all
  obtain ⟨hgrow, hkeep⟩ := tables_grow hg.bodies hg.start
  constructor
  · obtain ⟨h, hh, htables⟩ := hgrow [(1, [.nonTerminal 2])] (by simpa using ⟨by decide, hwithin⟩)
    obtain ⟨⟨t, u, ht, hu, hbelow⟩, _⟩ := htables ⟨.empty 3, .empty 3⟩ wideSets (by decide) (by decide) (by decide) (by decide)
    have hcell : (pairGrammar.table? ⟨.empty 3, .empty 3⟩).map (·.get? ⟨1, .terminal 0⟩) = some (some ⟨0, false⟩) := by
      decide +kernel
    have hcell' : ((pairGrammar.addProductions? [(1, [.nonTerminal 2])]).bind fun h => h.table? wideSets).map
        (·.get? ⟨1, .terminal 0⟩) = some (some ⟨1, false⟩) := by decide +kernel
    rw [ht, Option.map_some, Option.some.injEq] at hcell
    rw [hh, Option.bind_some, hu, Option.map_some, Option.some.injEq] at hcell'
    exact ⟨h, t, u, hh, ht, hu, hbelow, hcell, hcell'⟩
  · obtain ⟨a, b, s, s', ha, hb, hs, hs', hok⟩ := hkeep fun _ => 1
    obtain ⟨u, rfl⟩ := exists_ok_of_isOk hb hs' (by decide +kernel)
    obtain ⟨t, rfl⟩ := hok ⟨u, rfl⟩
    exact ⟨a, b, t, u, ha, hb, hs, hs'⟩

end Grammar

end Predictive
