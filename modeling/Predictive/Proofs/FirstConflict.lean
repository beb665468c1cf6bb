import Predictive.Proofs.LastClaim
import Predictive.Proofs.Strict
import Predictive.Table.Trace

/-!
# The first conflict

A production predicts the lookaheads that it claims cells for. Over any sets,
solved or not, a strict fill fails if two productions of a nonterminal predict
one lookahead. Up to its failure the claims on a cell are all of one production,
so the conflict that it reports is the first one: in the first row, of the first
production that meets an earlier one, under the first lookahead tried. The cell
has the last of the earlier claims, which vanishes if that production claims the
lookahead by what follows; the new entry vanishes unless it opens with it.
-/

namespace Predictive

/-- One set of symbols of the grammar for each nonterminal, solved or not. -/
structure Analysis.InRange (a : Analysis) (g : Grammar) : Prop where
  first_size : a.first.size = g.size
  follow_size : a.follow.size = g.size
  first_has : ∀ i t, a.first.Holds i t → g.Has t
  follow_has : ∀ i t, a.follow.Holds i t → g.Has t

theorem Analysis.inRange_of_solved {g : Grammar} (hg : g.InRange) {a : Analysis} (h : g.analysis? = some a) :
    a.InRange g := by
  obtain ⟨a', ha', hF, hP⟩ := Grammar.exists_analysis? hg.bodies hg.start
  rw [h, Option.some.injEq] at ha'
  subst ha'
  have hfirst : ∀ i t, a.first.Holds i t → g.Has t := fun _ _ => hF.has hg.symbols
  exact ⟨hF.size, hP.size, hfirst, fun _ _ => hP.has hg.symbols hfirst⟩

/-! ## Where a strict fill stops -/

namespace Table

theorem parts_of_fillStrictly_error {k : Conflict} : ∀ {claims : List Cell} {t : Table},
    t.fillStrictly claims = .error k → ∃ l c m, claims = l ++ c :: m ∧ t.fillStrictly l = .ok (t.fill l) ∧
      k.slot = c.slot ∧ k.incoming = c.entry ∧ (t.fill l).get? c.slot = some k.existing ∧
      k.existing.production ≠ c.entry.production
  | [], t, h => by cases h
  | c :: claims, t, h => by
    by_cases hc : ∀ e, t.get? c.slot = some e → e.production = c.entry.production
    · have hrest : (t.insert c).fillStrictly claims = .error k := by
        rw [fillStrictly] at h
        split at h
        · rename_i e he
          rwa [if_pos (hc e he)] at h
        · exact h
      obtain ⟨l, d, m, rfl, hl, hk⟩ := parts_of_fillStrictly_error hrest
      exact ⟨c :: l, d, m, rfl, fillStrictly_cons.mpr ⟨hc, hl⟩, hk⟩
    · simp only [not_forall] at hc
      obtain ⟨e, he, hne⟩ := hc
      rw [fillStrictly, he] at h
      simp only [if_neg hne, Except.error.injEq] at h
      subst h
      exact ⟨[], c, claims, rfl, rfl, rfl, rfl, he, hne⟩

theorem exists_error_iff {claims : List Cell} : (∃ k, (∅ : Table).fillStrictly claims = .error k) ↔
    ∃ c ∈ claims, ∃ d ∈ claims, c.slot = d.slot ∧ c.entry.production ≠ d.entry.production := by
  cases h : (∅ : Table).fillStrictly claims with
  | ok u =>
    have hagree := exists_fillStrictly_empty_iff.mp ⟨u, h⟩
    simp only [reduceCtorEq, exists_false, false_iff]
    rintro ⟨c, hc, d, hd, hslot, hne⟩
    exact hne (hagree c hc d hd hslot)
  | error k =>
    simp only [Except.error.injEq, exists_eq', true_iff]
    apply Classical.byContradiction
    intro hno
    obtain ⟨u, hu⟩ := exists_fillStrictly_empty_iff.mpr fun c hc d hd hslot =>
      Classical.byContradiction fun hne => hno ⟨c, hc, d, hd, hslot, hne⟩
    rw [h] at hu
    cases hu

end Table

theorem Cell.Earlier.mem_left {l m : List Cell} {c d : Cell} (h : d.Earlier c)
    (hpair : (l ++ c :: m).Pairwise Cell.Earlier) (hd : d ∈ l ++ c :: m) : d ∈ l := by
  rcases List.mem_append.mp hd with hd | hd
  · exact hd
  rcases List.mem_cons.mp hd with rfl | hd
  · exact absurd h h.not_earlier
  · have hm := (List.pairwise_cons.mp (List.pairwise_append.mp hpair).2.1).1
    exact absurd h (hm d hd).not_earlier

/-! ## Predictions -/

namespace Grammar

/-- The lookaheads that a right side can open with. -/
def opening? (g : Grammar) (a : Analysis) (i k : Nat) : Option (List Symbol) :=
  (g.production? i k).bind fun p => (a.first.firstOfSequence? p).map fun s => s.toList.filter Symbol.isLookahead

/-- The lookaheads that can follow, if the right side can vanish. -/
def following? (g : Grammar) (a : Analysis) (i k : Nat) : Option (List Symbol) :=
  (g.production? i k).bind fun p => (a.first.firstOfSequence? p).bind fun s =>
    if .epsilon ∈ s then (a.follow.get? i).map SymbolSet.toList else some []

/-- What production `k` of nonterminal `i` predicts, in the order in which it is tried. -/
def predict? (g : Grammar) (a : Analysis) (i k : Nat) : Option (List Symbol) :=
  (g.opening? a i k).bind fun l => (g.following? a i k).map (l ++ ·)

def Predicts (g : Grammar) (a : Analysis) (i k : Nat) (t : Symbol) : Prop := ∃ l, g.predict? a i k = some l ∧ t ∈ l

/-- Production `k` of `i` predicts `t`, as an earlier one does. -/
def Contested (g : Grammar) (a : Analysis) (i k : Nat) (t : Symbol) : Prop :=
  g.Predicts a i k t ∧ ∃ j < k, g.Predicts a i j t

structure FirstConflict (g : Grammar) (a : Analysis) (c : Conflict) : Prop where
  contested : g.Contested a c.slot.row c.incoming.production c.slot.lookahead
  row_least : ∀ i k t, g.Contested a i k t → c.slot.row ≤ i
  production_least : ∀ k t, g.Contested a c.slot.row k t → c.incoming.production ≤ k
  lookahead_first : ∃ l m, g.predict? a c.slot.row c.incoming.production = some (l ++ c.slot.lookahead :: m) ∧
    ∀ t ∈ l, ¬ g.Contested a c.slot.row c.incoming.production t
  existing_iff : ∀ j < c.incoming.production,
    g.Predicts a c.slot.row j c.slot.lookahead ↔ j = c.existing.production
  existing_vanishing : c.existing.vanishing = true ↔
    g.ClaimsFollowing a c.slot.row c.slot.lookahead c.existing.production
  incoming_vanishing : c.incoming.vanishing = true ↔
    ¬ g.ClaimsOpening a c.slot.row c.slot.lookahead c.incoming.production

section
variable {g : Grammar} {a : Analysis}

theorem predict?_rule {r : Rule} (hr : r ∈ g.rules) :
    g.predict? a r.left r.index = (r.claims? a).map (List.map fun c => c.slot.lookahead) := by
  unfold predict? opening? following? Rule.claims?
  rw [mem_rules.mp hr, Option.bind_some, Option.bind_some]
  cases a.first.firstOfSequence? r.right with
  | none => rfl
  | some s =>
    by_cases hε : Symbol.epsilon ∈ s
    · simp [hε, Function.comp_def]
    · simp [hε, Function.comp_def]

theorem exists_production_of_predicts {i k : Nat} {t : Symbol}
    (h : g.Predicts a i k t) : ∃ p, g.production? i k = some p := by
  obtain ⟨l, hl, _⟩ := h
  obtain ⟨_, hopening, _⟩ := Option.bind_eq_some_iff.mp hl
  obtain ⟨p, hp, _⟩ := Option.bind_eq_some_iff.mp hopening
  exact ⟨p, hp⟩

variable (hg : g.BodiesInRange) (hfirst : a.first.size = g.size) (hfollow : a.follow.size = g.size)
include hg hfirst hfollow

theorem exists_predict? {r : Rule} (hr : r ∈ g.rules) :
    ∃ cells : List Cell, g.predict? a r.left r.index = some (cells.map fun c => c.slot.lookahead) ∧
      (∀ c, c ∈ cells ↔ r.Claims a.first.Holds a.follow.Holds c) ∧ cells.Pairwise Cell.Earlier := by
  obtain ⟨cells, hcells, hmem, hpair⟩ := Rule.exists_claims? (a := a) (hfirst ▸ hg r hr) (hfollow ▸ left_lt_size hr)
  exact ⟨cells, by rw [predict?_rule hr, hcells, Option.map_some], hmem, hpair⟩

variable {claims : List Cell} (hmem : ∀ c, c ∈ claims ↔ ∃ r ∈ g.rules, r.Claims a.first.Holds a.follow.Holds c)
include hmem

theorem predicts_iff {i k : Nat} {t : Symbol} :
    g.Predicts a i k t ↔ ∃ c ∈ claims, c.slot = ⟨i, t⟩ ∧ c.entry.production = k := by
  constructor
  · intro h
    obtain ⟨p, hp⟩ := exists_production_of_predicts h
    obtain ⟨l, hl, ht⟩ := h
    have hr : (⟨i, k, p⟩ : Rule) ∈ g.rules := mem_rules.mpr hp
    obtain ⟨cells, hcells, hcells', _⟩ := exists_predict? hg hfirst hfollow hr
    rw [hl, Option.some.injEq] at hcells
    subst hcells
    obtain ⟨c, hc, rfl⟩ := List.mem_map.mp ht
    have hclaims := (hcells' c).mp hc
    exact ⟨c, (hmem c).mpr ⟨_, hr, hclaims⟩, congrArg (Slot.mk · c.slot.lookahead) hclaims.row, hclaims.production⟩
  · rintro ⟨c, hc, hslot, rfl⟩
    obtain ⟨r, hr, hclaims⟩ := (hmem c).mp hc
    obtain ⟨cells, hcells, hcells', _⟩ := exists_predict? hg hfirst hfollow hr
    rw [← hclaims.row, ← hclaims.production, hslot] at hcells
    exact ⟨_, hcells, List.mem_map.mpr ⟨c, (hcells' c).mpr hclaims, by rw [hslot]⟩⟩

section
variable {l m : List Cell} {c : Cell} (hclaims : claims = l ++ c :: m) (hpair : claims.Pairwise Cell.Earlier)
  (hagree : ∀ d ∈ l, ∀ e ∈ l, d.slot = e.slot → d.entry.production = e.entry.production)
include hclaims hpair hagree

/-- If the claims before `c` agree, they have no contested cell with its later production. -/
theorem Contested.not_earlier {d : Cell} (hd : d ∈ claims)
    (h : g.Contested a d.slot.row d.entry.production d.slot.lookahead) : ¬ d.Earlier c := by
  subst hclaims
  intro hdc
  have hdl := hdc.mem_left hpair hd
  obtain ⟨_, j, hj, hpredict⟩ := h
  obtain ⟨e, he, hslot, rfl⟩ := (predicts_iff hg hfirst hfollow hmem).mp hpredict
  rcases List.mem_append.mp he with hel | hem
  · exact absurd (hagree e hel d hdl hslot) (Nat.ne_of_lt hj)
  · have hed : e.Earlier d := Or.inr ⟨congrArg Slot.row hslot, Or.inl hj⟩
    exact hed.not_earlier ((List.pairwise_append.mp hpair).2.2 d hdl e hem)

theorem Contested.not_before {i j : Nat} {t : Symbol} (h : g.Contested a i j t) :
    ¬ (i < c.slot.row ∨ i = c.slot.row ∧ j < c.entry.production) := by
  intro hbefore
  obtain ⟨⟨⟨_, _⟩, e⟩, hd, heq, rfl⟩ := (predicts_iff hg hfirst hfollow hmem).mp h.1
  cases heq
  have hearlier : Cell.Earlier ⟨⟨i, t⟩, e⟩ c := hbefore.imp_right (And.imp_right Or.inl)
  exact Contested.not_earlier hg hfirst hfollow hmem hclaims hpair hagree hd h hearlier

theorem exists_lookahead_first : ∃ l' m', g.predict? a c.slot.row c.entry.production =
    some (l' ++ c.slot.lookahead :: m') ∧ ∀ t ∈ l', ¬ g.Contested a c.slot.row c.entry.production t := by
  have hc : c ∈ claims := by simp [hclaims]
  obtain ⟨r, hr, hrc⟩ := (hmem c).mp hc
  obtain ⟨cells, hcells, hcells', hcellsPair⟩ := exists_predict? hg hfirst hfollow hr
  obtain ⟨l', m', rfl⟩ := List.append_of_mem ((hcells' c).mpr hrc)
  rw [← hrc.row, ← hrc.production, List.map_append, List.map_cons] at hcells
  refine ⟨_, _, hcells, fun t ht h => ?_⟩
  obtain ⟨d, hd, rfl⟩ := List.mem_map.mp ht
  have hrd := (hcells' d).mp (List.mem_append_left _ hd)
  have hdc : d.Earlier c := (List.pairwise_append.mp hcellsPair).2.2 d hd c List.mem_cons_self
  rw [hrc.row, hrc.production, ← hrd.row, ← hrd.production] at h
  exact Contested.not_earlier hg hfirst hfollow hmem hclaims hpair hagree ((hmem d).mpr ⟨r, hr, hrd⟩) h hdc

theorem predicts_before_iff {old : Entry} (hold : ⟨c.slot, old⟩ ∈ l) {j : Nat} (hj : j < c.entry.production) :
    g.Predicts a c.slot.row j c.slot.lookahead ↔ j = old.production := by
  have hpredicts := @predicts_iff g a hg hfirst hfollow _ hmem
  constructor
  · intro h
    obtain ⟨e, he, heq, rfl⟩ := hpredicts.mp h
    have hec : e.Earlier c := Or.inr ⟨congrArg Slot.row heq, Or.inl hj⟩
    exact hagree e (hec.mem_left (hclaims ▸ hpair) (hclaims ▸ he)) _ hold heq
  · rintro rfl
    have hold' : (⟨c.slot, old⟩ : Cell) ∈ claims := hclaims ▸ List.mem_append_left _ hold
    exact hpredicts.mpr ⟨_, hold', rfl, rfl⟩

omit hfollow hagree in
/-- Before `c` the cell has the last claim of its production, which is the one that follows if there is one. -/
theorem vanishing_before_iff {old : Entry} (hexisting : ((∅ : Table).fill l).get? c.slot = some old)
    (hlt : old.production < c.entry.production) :
    old.vanishing = true ↔ g.ClaimsFollowing a c.slot.row c.slot.lookahead old.production := by
  have hl : l.Pairwise Cell.Precedes :=
    (List.pairwise_append.mp (hclaims ▸ hpair)).1.imp fun h => h.precedes
  have hearlier : Cell.Earlier ⟨c.slot, ⟨old.production, true⟩⟩ c := Or.inr ⟨rfl, Or.inl hlt⟩
  rw [((Table.get?_fill_eq_some_iff hl).mp hexisting).2, claimsFollowing_iff hg hfirst, ← hmem]
  subst hclaims
  exact ⟨List.mem_append_left _, hearlier.mem_left hpair⟩

/-- A production makes the claims that it opens with before the others, so `c` is one of those if it can be. -/
theorem vanishing_iff_not_opening
    (hcontested : g.Contested a c.slot.row c.entry.production c.slot.lookahead) :
    c.entry.vanishing = true ↔ ¬ g.ClaimsOpening a c.slot.row c.slot.lookahead c.entry.production := by
  have hc : c ∈ claims := by simp [hclaims]
  rw [claimsOpening_iff hg hfirst, ← hmem]
  cases hvanishing : c.entry.vanishing with
  | false =>
    have hsame : c = ⟨c.slot, ⟨c.entry.production, false⟩⟩ := by rw [← hvanishing]
    simpa [← hsame] using hc
  | true =>
    refine iff_of_true rfl fun hopening => ?_
    have hearlier : Cell.Earlier ⟨c.slot, ⟨c.entry.production, false⟩⟩ c :=
      Or.inr ⟨rfl, Or.inr ⟨rfl, Or.inl ⟨rfl, hvanishing⟩⟩⟩
    exact Contested.not_earlier hg hfirst hfollow hmem hclaims hpair hagree hopening hcontested hearlier

end

theorem firstConflict_of_fillStrictly (hpair : claims.Pairwise Cell.Earlier) {k : Conflict}
    (hk : (∅ : Table).fillStrictly claims = .error k) : g.FirstConflict a k := by
  obtain ⟨l, c, m, hclaims, hl, hslot, hincoming, hexisting, hne⟩ := Table.parts_of_fillStrictly_error hk
  obtain ⟨_, old, _⟩ := k
  subst hslot hincoming
  have hagree : ∀ d ∈ l, ∀ e ∈ l, d.slot = e.slot → d.entry.production = e.entry.production :=
    Table.exists_fillStrictly_empty_iff.mp ⟨_, hl⟩
  have hc : c ∈ claims := by simp [hclaims]
  have hold : (⟨c.slot, old⟩ : Cell) ∈ l := Table.mem_of_get?_fill hexisting
  have hbefore : Cell.Earlier ⟨c.slot, old⟩ c :=
    (List.pairwise_append.mp (hclaims ▸ hpair)).2.2 _ hold c List.mem_cons_self
  have hlt : old.production < c.entry.production := Nat.lt_of_le_of_ne (hbefore.precedes.le rfl) hne
  have hexisting_iff := fun j => @predicts_before_iff g a hg hfirst hfollow _ hmem _ _ _ hclaims hpair hagree _ hold j
  have hnot := fun i j t => @Contested.not_before g a hg hfirst hfollow _ hmem _ _ _ hclaims hpair hagree i j t
  have hcontested : g.Contested a c.slot.row c.entry.production c.slot.lookahead :=
    ⟨(predicts_iff hg hfirst hfollow hmem).mpr ⟨c, hc, rfl, rfl⟩, _, hlt, (hexisting_iff _ hlt).mpr rfl⟩
  refine ⟨hcontested, fun i j t h => ?_, fun j t h => ?_, ?_, hexisting_iff, ?_, ?_⟩
  · exact Nat.not_lt.mp fun hrow => hnot i j t h (Or.inl hrow)
  · exact Nat.not_lt.mp fun hprod => hnot _ j t h (Or.inr ⟨rfl, hprod⟩)
  · exact exists_lookahead_first hg hfirst hfollow hmem hclaims hpair hagree
  · exact vanishing_before_iff hg hfirst hmem hclaims hpair hexisting hlt
  · exact vanishing_iff_not_opening hg hfirst hfollow hmem hclaims hpair hagree hcontested

end

/-! ## The report of a conflict -/

section
variable {g : Grammar} (hsymbols : ∀ r ∈ g.rules, ∀ s ∈ r.right, g.Has s)
include hsymbols

theorem exists_entryText? {i : Nat} {e : Entry} (h : ∃ p, g.production? i e.production = some p) :
    ∃ text, g.entryText? i e = some text := by
  obtain ⟨p, hp⟩ := h
  obtain ⟨b, hb, _⟩ := Option.bind_eq_some_iff.mp hp
  have hnames : ∃ names, g.entryNames? i e = some names := by
    unfold entryNames?
    rw [hp, Option.bind_some]
    split
    · exact ⟨_, rfl⟩
    · exact exists_productionNames? (hsymbols ⟨i, e.production, p⟩ (mem_rules.mpr hp))
  obtain ⟨names, hnames⟩ := hnames
  exact ⟨_, by rw [entryText?, hb, Option.bind_some, hnames, Option.map_some]⟩

theorem exists_report? {c : Conflict} (hlook : g.Has c.slot.lookahead)
    (hexisting : ∃ p, g.production? c.slot.row c.existing.production = some p)
    (hincoming : ∃ p, g.production? c.slot.row c.incoming.production = some p) :
    ∃ r, c.report? g = some r ∧ g.nameOf? (.nonTerminal c.slot.row) = some r.nonTerminal ∧
      g.nameOf? c.slot.lookahead = some r.lookahead ∧ g.entryText? c.slot.row c.existing = some r.existing ∧
      g.entryText? c.slot.row c.incoming = some r.incoming := by
  obtain ⟨name, hname⟩ := exists_nameOf? hlook
  obtain ⟨old, hold⟩ := exists_entryText? hsymbols hexisting
  obtain ⟨new, hnew⟩ := exists_entryText? hsymbols hincoming
  obtain ⟨_, hp⟩ := hexisting
  obtain ⟨b, hb, _⟩ := Option.bind_eq_some_iff.mp hp
  refine ⟨⟨b.name, name, old, new⟩, ?_, ?_, hname, hold, hnew⟩
  · simp [Conflict.report?, hb, hname, hold, hnew]
  · have hb' : g.nonTerminals[c.slot.row]? = some b := hb
    simp [nameOf?, Alphabet.nameOf?, alphabet, hb']

end

/-- Over any sets in range, the strict fill fails if two productions of a
nonterminal predict one lookahead. It is the plain fill if it does not fail, and
reports the first conflict if it does. -/
theorem strict_reports_first {g : Grammar} {a : Analysis} (hsymbols : ∀ r ∈ g.rules, ∀ s ∈ r.right, g.Has s)
    (ha : a.InRange g) :
    ∃ strict, g.strictTable? a = some strict ∧
      ((∃ c, strict = .error c) ↔ ∃ i j k t, j ≠ k ∧ g.Predicts a i j t ∧ g.Predicts a i k t) ∧
      (∀ u, strict = .ok u → g.table? a = some u) ∧
      ∀ c, strict = .error c → g.FirstConflict a c ∧
        ∃ r, c.report? g = some r ∧ g.nameOf? (.nonTerminal c.slot.row) = some r.nonTerminal ∧
          g.nameOf? c.slot.lookahead = some r.lookahead ∧ g.entryText? c.slot.row c.existing = some r.existing ∧
          g.entryText? c.slot.row c.incoming = some r.incoming := by
  have hg : g.BodiesInRange := fun r hr _ hi => hsymbols r hr _ hi
  obtain ⟨claims, hclaims, hmem, hpair⟩ := exists_claims? hg ha.first_size ha.follow_size
  have hpredicts := @predicts_iff g a hg ha.first_size ha.follow_size _ hmem
  have hstrict : g.strictTable? a = some ((∅ : Table).fillStrictly claims) := by
    rw [strictTable?, hclaims, Option.map_some]
  refine ⟨_, hstrict, ?_, fun u hu => ?_, fun c hc => ?_⟩
  · rw [Table.exists_error_iff]
    constructor
    · rintro ⟨c, hc, d, hd, hslot, hne⟩
      exact ⟨_, _, _, _, hne, hpredicts.mpr ⟨c, hc, rfl, rfl⟩, hpredicts.mpr ⟨d, hd, hslot.symm, rfl⟩⟩
    · rintro ⟨i, j, k, t, hne, hj, hk⟩
      obtain ⟨c, hc, hslot, rfl⟩ := hpredicts.mp hj
      obtain ⟨d, hd, hslot', rfl⟩ := hpredicts.mp hk
      exact ⟨c, hc, d, hd, hslot.trans hslot'.symm, hne⟩
  · rw [table?, hclaims, Option.map_some, Table.eq_fill_of_fillStrictly hu]
  · have hfirst := firstConflict_of_fillStrictly hg ha.first_size ha.follow_size hmem hpair hc
    obtain ⟨hincoming, j, hj, hexisting⟩ := hfirst.contested
    refine ⟨hfirst, exists_report? hsymbols ?_ ?_ (exists_production_of_predicts hincoming)⟩
    · obtain ⟨d, hd, hslot, _⟩ := hpredicts.mp hincoming
      obtain ⟨r, hr, hrd⟩ := (hmem d).mp hd
      have := hrd.has (hsymbols r hr) ha.first_has ha.follow_has
      rwa [hslot] at this
    · rw [(hfirst.existing_iff j hj).mp hexisting] at hexisting
      exact exists_production_of_predicts hexisting

/-- Before the sets are solved the strict fill is the plain one; afterwards `B`
has two productions for `a`, which stands on its right side and follows it. -/
theorem strict_reports_first_chain :
    (∃ u, chainGrammar.strictTable? ⟨.empty 3, .empty 3⟩ = some (.ok u) ∧
      chainGrammar.table? ⟨.empty 3, .empty 3⟩ = some u) ∧
    ∃ a c, chainGrammar.analysis? = some a ∧ chainGrammar.strictTable? a = some (.error c) ∧
      chainGrammar.FirstConflict a c ∧ c.report? chainGrammar = some ⟨"B", "a", "B → ε", "B → a"⟩ := by
  have hsymbols : ∀ r ∈ chainGrammar.rules, ∀ s ∈ r.right, chainGrammar.Has s := by decide +kernel
  have hempty : Analysis.InRange ⟨.empty 3, .empty 3⟩ chainGrammar :=
    ⟨rfl, rfl, fun i t h => absurd h (SetFamily.not_holds_empty 3 i t),
      fun i t h => absurd h (SetFamily.not_holds_empty 3 i t)⟩
  refine ⟨?_, ?_⟩
  · obtain ⟨strict, hstrict, _, htable, _⟩ := strict_reports_first hsymbols hempty
    have hok : (chainGrammar.strictTable? ⟨.empty 3, .empty 3⟩).map Except.isOk = some true := by decide +kernel
    rw [hstrict, Option.map_some, Option.some.injEq] at hok
    cases strict with
    | error c => cases hok
    | ok u => exact ⟨u, hstrict, htable u rfl⟩
  · have hrange : chainGrammar.InRange := ⟨by decide +kernel, hsymbols⟩
    obtain ⟨a, ha, _⟩ := exists_analysis? hrange.bodies hrange.start
    obtain ⟨strict, hstrict, _, _, hconflict⟩ :=
      strict_reports_first hsymbols (Analysis.inRange_of_solved hrange ha)
    have hreport : ((chainGrammar.analysis?.bind chainGrammar.strictTable?).bind fun strict =>
        match strict with
        | .ok _ => none
        | .error c => c.report? chainGrammar) = some ⟨"B", "a", "B → ε", "B → a"⟩ := by decide +kernel
    rw [ha, Option.bind_some, hstrict, Option.bind_some] at hreport
    cases strict with
    | ok u => cases hreport
    | error c => exact ⟨a, c, ha, hstrict, (hconflict c rfl).1, hreport⟩

end Grammar

end Predictive
