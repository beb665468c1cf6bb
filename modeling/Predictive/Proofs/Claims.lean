import Mathlib.Data.List.Pairwise
import Predictive.Grammar.InRange
import Predictive.Proofs.Opening
import Predictive.Table.Build

/-!
# Claims on cells

A rule claims a cell because its right side opens with the lookahead, or because
it can vanish and the lookahead can follow. A filled table holds for every slot
the last claim on it, which has the greatest production, and a strict fill ends
well if all claims on a slot are of one production.
-/

namespace Predictive

/-! ## Tables filled with claims -/

namespace Table

theorem fill_append (t : Table) (l m : List Cell) : t.fill (l ++ m) = (t.fill l).fill m := List.foldl_append

theorem get?_fill_of_forall_ne (t : Table) {slot : Slot} :
    ∀ {claims : List Cell}, (∀ c ∈ claims, c.slot ≠ slot) → (t.fill claims).get? slot = t.get? slot
  | [], _ => rfl
  | c :: claims, h => by
    have ih := get?_fill_of_forall_ne (t.insert c) fun d hd => h d (List.mem_cons_of_mem c hd)
    rw [get?_insert, if_neg (h c List.mem_cons_self)] at ih
    exact ih

theorem get?_fill_of_last (t : Table) {l m : List Cell} {c : Cell} (h : ∀ d ∈ m, d.slot ≠ c.slot) :
    (t.fill (l ++ c :: m)).get? c.slot = some c.entry := by
  rw [fill_append]
  show (((t.fill l).insert c).fill m).get? c.slot = _
  rw [get?_fill_of_forall_ne _ h, get?_insert, if_pos rfl]

theorem exists_last_claim {slot : Slot} : ∀ {claims : List Cell}, (∃ c ∈ claims, c.slot = slot) →
    ∃ l c m, claims = l ++ c :: m ∧ c.slot = slot ∧ ∀ d ∈ m, d.slot ≠ slot
  | [], ⟨_, hc, _⟩ => absurd hc List.not_mem_nil
  | c :: claims, h => by
    by_cases hlater : ∃ d ∈ claims, d.slot = slot
    · obtain ⟨l, d, m, rfl, hd, hm⟩ := exists_last_claim hlater
      exact ⟨c :: l, d, m, rfl, hd, hm⟩
    · have hm : ∀ d ∈ claims, d.slot ≠ slot := fun d hd e => hlater ⟨d, hd, e⟩
      obtain ⟨d, hd, e⟩ := h
      rcases List.mem_cons.mp hd with rfl | hd
      · exact ⟨[], d, claims, rfl, e, hm⟩
      · exact absurd e (hm d hd)

theorem exists_get?_fill (t : Table) {claims : List Cell} {c : Cell} (hc : c ∈ claims) :
    ∃ l d m, claims = l ++ d :: m ∧ d.slot = c.slot ∧ (t.fill claims).get? c.slot = some d.entry ∧
      ∀ x ∈ m, x.slot ≠ c.slot := by
  obtain ⟨l, d, m, rfl, hd, hm⟩ := exists_last_claim ⟨c, hc, rfl⟩
  refine ⟨l, d, m, rfl, hd, ?_, hm⟩
  rw [← hd] at hm ⊢
  exact get?_fill_of_last t hm

theorem mem_of_get?_fill {claims : List Cell} {slot : Slot} {e : Entry}
    (h : ((∅ : Table).fill claims).get? slot = some e) : ⟨slot, e⟩ ∈ claims := by
  by_cases hex : ∃ c ∈ claims, c.slot = slot
  · obtain ⟨c, hc, rfl⟩ := hex
    obtain ⟨l, d, m, rfl, hd, hget, _⟩ := exists_get?_fill ∅ hc
    rw [hget, Option.some.injEq] at h
    rw [← hd, ← h]
    exact List.mem_append_right l List.mem_cons_self
  · rw [get?_fill_of_forall_ne ∅ fun c hc e => hex ⟨c, hc, e⟩, get?_empty] at h
    cases h

theorem forall_cells_fill {P : Cell → Prop} {claims : List Cell} (h : ∀ c ∈ claims, P c) :
    ∀ c ∈ ((∅ : Table).fill claims).cells, P c :=
  fun c hc => h c (mem_of_get?_fill (mem_cells.mp hc))

/-! ## Strict fills -/

/-- On one slot, the claims are of one production. -/
def Agree (c d : Cell) : Prop := c.slot = d.slot → c.entry.production = d.entry.production

instance : Std.Symm Agree := ⟨fun _ _ h e => (h e.symm).symm⟩

theorem fillStrictly_cons {t u : Table} {c : Cell} {claims : List Cell} :
    t.fillStrictly (c :: claims) = .ok u ↔
      (∀ e, t.get? c.slot = some e → e.production = c.entry.production) ∧
        (t.insert c).fillStrictly claims = .ok u := by
  rw [fillStrictly]
  cases h : t.get? c.slot with
  | none => simp
  | some e =>
    by_cases he : e.production = c.entry.production
    · simp [he]
    · simp [he]

theorem exists_fillStrictly_iff {claims : List Cell} : ∀ {t : Table},
    (∃ u, t.fillStrictly claims = .ok u) ↔ claims.Pairwise Agree ∧
      ∀ c ∈ claims, ∀ e, t.get? c.slot = some e → e.production = c.entry.production := by
  induction claims with
  | nil => intro t; simp [fillStrictly]
  | cons c claims ih =>
    intro t
    simp only [fillStrictly_cons, exists_and_left, ih, List.pairwise_cons, List.forall_mem_cons, get?_insert]
    constructor
    · rintro ⟨hc, hagree, hins⟩
      refine ⟨⟨fun d hd e => hins d hd c.entry (if_pos e), hagree⟩, hc, fun d hd e he => ?_⟩
      by_cases hs : c.slot = d.slot
      · exact (hc e (hs ▸ he)).trans (hins d hd c.entry (if_pos hs))
      · exact hins d hd e ((if_neg hs).trans he)
    · rintro ⟨⟨hcd, hagree⟩, hc, ht⟩
      refine ⟨hc, hagree, fun d hd e he => ?_⟩
      split at he
      · rename_i hs
        cases he
        exact hcd d hd hs
      · exact ht d hd e he

theorem production_eq_of_fillStrictly {u : Table} {claims : List Cell}
    (h : (∅ : Table).fillStrictly claims = .ok u) {c d : Cell} (hc : c ∈ claims) (hd : d ∈ claims)
    (hslot : c.slot = d.slot) : c.entry.production = d.entry.production :=
  (exists_fillStrictly_iff.mp ⟨u, h⟩).1.forall_of_forall (fun _ _ _ => rfl) hc hd hslot

theorem exists_fillStrictly_empty_iff {claims : List Cell} : (∃ u, (∅ : Table).fillStrictly claims = .ok u) ↔
    ∀ c ∈ claims, ∀ d ∈ claims, c.slot = d.slot → c.entry.production = d.entry.production := by
  constructor
  · rintro ⟨u, hu⟩ c hc d hd
    exact production_eq_of_fillStrictly hu hc hd
  · intro h
    apply exists_fillStrictly_iff.mpr
    exact ⟨List.pairwise_of_forall_mem_list h, fun c _ e he => by simp at he⟩

end Table

/-! ## The claims of a rule -/

inductive Rule.Claims (r : Rule) (F P : Facts) : Cell → Prop
  | opening {t : Symbol} (ht : t.isLookahead = true) (h : Opens F r.right t) :
    Claims r F P ⟨⟨r.left, t⟩, ⟨r.index, false⟩⟩
  | following {t : Symbol} (hε : Opens F r.right .epsilon) (h : P r.left t) :
    Claims r F P ⟨⟨r.left, t⟩, ⟨r.index, true⟩⟩

theorem Rule.Claims.row {r : Rule} {F P : Facts} {c : Cell} (h : r.Claims F P c) : c.slot.row = r.left := by
  cases h <;> rfl

theorem Rule.Claims.production {r : Rule} {F P : Facts} {c : Cell} (h : r.Claims F P c) :
    c.entry.production = r.index := by
  cases h <;> rfl

theorem Rule.Claims.has {g : Grammar} {r : Rule} (hsymbols : ∀ s ∈ r.right, g.Has s) {F P : Facts}
    (hF : ∀ i a, F i a → g.Has a) (hP : ∀ i a, P i a → g.Has a) {c : Cell} (h : r.Claims F P c) :
    g.Has c.slot.lookahead := by
  cases h with
  | opening _ h => exact h.has hsymbols hF
  | following _ h => exact hP _ _ h

/-- Claims are in order: by production in a row, and a production claims a cell
a second time only to make it vanishing. -/
def Cell.Precedes (c d : Cell) : Prop :=
  c.slot.row = d.slot.row → c.entry.production < d.entry.production ∨
    c.entry.production = d.entry.production ∧
      (c.slot = d.slot → c.entry.vanishing = false ∧ d.entry.vanishing = true)

theorem Cell.Precedes.le {c d : Cell} (h : c.Precedes d) (hrow : c.slot.row = d.slot.row) :
    c.entry.production ≤ d.entry.production := by
  rcases h hrow with hlt | ⟨heq, _⟩
  · exact Nat.le_of_lt hlt
  · exact Nat.le_of_eq heq

theorem Table.exists_entry_ge {claims : List Cell} (h : claims.Pairwise Cell.Precedes) {c : Cell} (hc : c ∈ claims) :
    ∃ e, ((∅ : Table).fill claims).get? c.slot = some e ∧ c.entry.production ≤ e.production := by
  obtain ⟨l, d, m, rfl, hd, hget, hm⟩ := exists_get?_fill ∅ hc
  refine ⟨d.entry, hget, ?_⟩
  rcases List.mem_append.mp hc with hc | hc
  · have hcd : c.Precedes d := (List.pairwise_append.mp h).2.2 c hc d List.mem_cons_self
    exact hcd.le (congrArg Slot.row hd.symm)
  · rcases List.mem_cons.mp hc with rfl | hc
    · exact Nat.le_refl _
    · exact absurd rfl (hm c hc)

/-- Of two entries on one slot, the one that is written first. -/
def Entry.Before (e e' : Entry) : Prop :=
  e.production < e'.production ∨ e.production = e'.production ∧ e.vanishing = false ∧ e'.vanishing = true

theorem Entry.Before.not_before {e e' : Entry} (h : e.Before e') : ¬ e'.Before e := by
  unfold Before at *
  grind

theorem Cell.Precedes.before {c d : Cell} (h : c.Precedes d) (hslot : c.slot = d.slot) : c.entry.Before d.entry := by
  apply (h (congrArg Slot.row hslot)).imp_right
  exact And.imp_right fun hvanishing => hvanishing hslot

/-- A filled table has the last of the entries that are claimed. -/
theorem Table.get?_fill_iff {claims : List Cell} (h : claims.Pairwise Cell.Precedes) {slot : Slot} {e : Entry} :
    ((∅ : Table).fill claims).get? slot = some e ↔
      ⟨slot, e⟩ ∈ claims ∧ ∀ e', ⟨slot, e'⟩ ∈ claims → e' = e ∨ e'.Before e := by
  have hlast : ∀ e₁ e₂, ((∅ : Table).fill claims).get? slot = some e₁ → ⟨slot, e₂⟩ ∈ claims →
      e₂ = e₁ ∨ e₂.Before e₁ := by
    intro e₁ e₂ he₁ he₂
    obtain ⟨l, d, m, rfl, hd, hget, hm⟩ := exists_get?_fill ∅ he₂
    rw [he₁, Option.some.injEq] at hget
    subst hget
    rcases List.mem_append.mp he₂ with hl | hdm
    · have hpair : Cell.Precedes ⟨slot, e₂⟩ d := (List.pairwise_append.mp h).2.2 _ hl d List.mem_cons_self
      exact Or.inr (hpair.before hd.symm)
    · rcases List.mem_cons.mp hdm with rfl | hm'
      · exact Or.inl rfl
      · exact absurd rfl (hm _ hm')
  constructor
  · intro he
    exact ⟨mem_of_get?_fill he, fun e' he' => hlast e e' he he'⟩
  · intro ⟨he, hbefore⟩
    obtain ⟨_, d, _, _, _, hget, _⟩ := exists_get?_fill ∅ he
    have hd : ⟨slot, d.entry⟩ ∈ claims := mem_of_get?_fill hget
    rcases hbefore d.entry hd with hsame | hde
    · rw [← hsame]
      exact hget
    · rcases hlast d.entry e hget he with rfl | hed
      · exact hget
      · exact absurd hed hde.not_before

/-- Claims are made row by row, in a row by production, and by a production first
for what it opens with and then for what follows, each in the order of symbols. -/
def Cell.Earlier (c d : Cell) : Prop :=
  c.slot.row < d.slot.row ∨ c.slot.row = d.slot.row ∧ (c.entry.production < d.entry.production ∨
    c.entry.production = d.entry.production ∧ (c.entry.vanishing = false ∧ d.entry.vanishing = true ∨
      c.entry.vanishing = d.entry.vanishing ∧ KeyOrder.before c.slot.lookahead d.slot.lookahead))

theorem Cell.Earlier.precedes {c d : Cell} (h : c.Earlier d) : c.Precedes d := by
  intro hrow
  rcases h with hlt | ⟨_, hlt | ⟨hprod, hvanishing | ⟨_, hbefore⟩⟩⟩
  · omega
  · exact Or.inl hlt
  · exact Or.inr ⟨hprod, fun _ => hvanishing⟩
  · refine Or.inr ⟨hprod, fun hslot => ?_⟩
    rw [hslot] at hbefore
    exact absurd hbefore (KeyOrder.before_irrefl _)

theorem Cell.Earlier.not_earlier {c d : Cell} (h : c.Earlier d) : ¬ d.Earlier c := by
  have hbefore : KeyOrder.before c.slot.lookahead d.slot.lookahead →
      ¬ KeyOrder.before d.slot.lookahead c.slot.lookahead :=
    fun hcd hdc => KeyOrder.before_irrefl _ (KeyOrder.before_trans hcd hdc)
  unfold Earlier at *
  grind

theorem pairwise_earlier_map {l : List Symbol} (hl : Ascending id l) (row : Nat) (e : Entry) :
    (l.map fun t => (⟨⟨row, t⟩, e⟩ : Cell)).Pairwise Cell.Earlier := by
  rw [List.pairwise_map]
  exact hl.imp fun hb => Or.inr ⟨rfl, Or.inr ⟨rfl, Or.inr ⟨rfl, hb⟩⟩⟩

theorem mem_openingCells {row : Nat} {e : Entry} {ahead : SymbolSet} {c : Cell} :
    c ∈ (ahead.toList.filter Symbol.isLookahead).map (fun t => Cell.mk ⟨row, t⟩ e) ↔
      ∃ t, t.isLookahead = true ∧ t ∈ ahead ∧ ⟨⟨row, t⟩, e⟩ = c := by
  simp only [List.mem_map, List.mem_filter, SymbolSet.mem_toList]
  exact exists_congr fun t => by tauto

theorem Rule.exists_claims? {r : Rule} {a : Analysis} (hright : Production.Within a.first.size r.right)
    (hleft : r.left < a.follow.size) :
    ∃ cells, r.claims? a = some cells ∧ (∀ c, c ∈ cells ↔ r.Claims a.first.Holds a.follow.Holds c) ∧
      cells.Pairwise Cell.Earlier := by
  obtain ⟨ahead, hahead, hmem⟩ := a.first.exists_firstOfSequence? hright
  obtain ⟨after, hafter⟩ := SetFamily.exists_get? hleft
  have hafter' : ∀ t, t ∈ after ↔ a.follow.Holds r.left t := fun t => (SetFamily.holds_iff hafter).symm
  have hopening := pairwise_earlier_map (ahead.ascending.filter Symbol.isLookahead) r.left ⟨r.index, false⟩
  unfold claims?
  rw [hahead, Option.bind_some]
  by_cases hε : Symbol.epsilon ∈ ahead
  · simp only [if_pos hε, hafter, Option.map_some]
    refine ⟨_, rfl, fun c => ?_, List.pairwise_append.mpr ⟨hopening, pairwise_earlier_map after.ascending _ _, ?_⟩⟩
    · rw [List.mem_append, mem_openingCells, List.mem_map]
      constructor
      · rintro (⟨t, ht, h, rfl⟩ | ⟨t, ht, rfl⟩)
        · exact .opening ht ((hmem t).mp h)
        · exact .following ((hmem _).mp hε) ((hafter' t).mp ht)
      · intro h
        cases h with
        | opening ht h => exact Or.inl ⟨_, ht, (hmem _).mpr h, rfl⟩
        | following _ h => exact Or.inr ⟨_, (hafter' _).mpr h, rfl⟩
    · intro c hc d hd
      obtain ⟨t, _, rfl⟩ := List.mem_map.mp hc
      obtain ⟨t', _, rfl⟩ := List.mem_map.mp hd
      exact Or.inr ⟨rfl, Or.inr ⟨rfl, Or.inl ⟨rfl, rfl⟩⟩⟩
  · rw [if_neg hε]
    refine ⟨_, rfl, fun c => ?_, hopening⟩
    rw [mem_openingCells]
    constructor
    · rintro ⟨t, ht, h, rfl⟩
      exact .opening ht ((hmem t).mp h)
    · intro h
      cases h with
      | opening ht h => exact ⟨_, ht, (hmem _).mpr h, rfl⟩
      | following hno _ => exact absurd ((hmem _).mpr hno) hε

/-! ## The claims of a grammar -/

namespace Grammar

theorem pairwise_zipIdx {α : Type} (l : List α) : l.zipIdx.Pairwise fun x y => x.2 < y.2 := by
  rw [← List.pairwise_map (f := Prod.snd), List.zipIdx_map_snd]
  exact List.pairwise_lt_range'

theorem pairwise_rules (g : Grammar) :
    g.rules.Pairwise fun r s => r.left < s.left ∨ r.left = s.left ∧ r.index < s.index := by
  unfold rules
  rw [List.pairwise_flatMap]
  constructor
  · intro a _
    rw [List.pairwise_map]
    exact (pairwise_zipIdx _).imp fun hlt => Or.inr ⟨rfl, hlt⟩
  · have hindex : (g.nonTerminals.map NonTerminal.index).Pairwise (· < ·) := g.indexed ▸ List.pairwise_lt_range
    refine (List.pairwise_map.mp hindex).imp fun hlt r hr s hs => ?_
    obtain ⟨_, _, rfl⟩ := List.mem_map.mp hr
    obtain ⟨_, _, rfl⟩ := List.mem_map.mp hs
    exact Or.inl hlt

/-- The families may have sets for other nonterminals too. -/
theorem exists_claims?_of_le {g : Grammar} (hg : g.BodiesInRange) {a : Analysis} (hfirst : g.size ≤ a.first.size)
    (hfollow : g.size ≤ a.follow.size) :
    ∃ claims, g.claims? a = some claims ∧
      (∀ c, c ∈ claims ↔ ∃ r ∈ g.rules, r.Claims a.first.Holds a.follow.Holds c) ∧
      claims.Pairwise Cell.Earlier := by
  let cells : Rule → List Cell := fun r => (r.claims? a).getD []
  have hcells : ∀ r ∈ g.rules, r.claims? a = some (cells r) ∧
      (∀ c, c ∈ cells r ↔ r.Claims a.first.Holds a.follow.Holds c) ∧ (cells r).Pairwise Cell.Earlier := by
    intro r hr
    obtain ⟨l, hl, hmem, hpair⟩ := Rule.exists_claims? (fun i hi => Nat.lt_of_lt_of_le (hg r hr i hi) hfirst)
      (Nat.lt_of_lt_of_le (left_lt_size hr) hfollow)
    have e : cells r = l := by
      show (r.claims? a).getD [] = l
      rw [hl]
      rfl
    rw [e]
    exact ⟨hl, hmem, hpair⟩
  refine ⟨g.rules.flatMap cells, ?_, fun c => ?_, List.pairwise_flatMap.mpr ⟨fun r hr => (hcells r hr).2.2, ?_⟩⟩
  · unfold claims?
    rw [mapM_eq_some_map fun r hr => (hcells r hr).1, Option.map_some, List.flatMap_def]
  · rw [List.mem_flatMap]
    exact exists_congr fun r => and_congr_right fun hr => (hcells r hr).2.1 c
  · refine g.pairwise_rules.imp_of_mem fun {r s} hr hs hrs c hc d hd => ?_
    have hc' := ((hcells r hr).2.1 c).mp hc
    have hd' := ((hcells s hs).2.1 d).mp hd
    unfold Cell.Earlier
    rw [hc'.row, hd'.row, hc'.production, hd'.production]
    exact hrs.imp_right (And.imp_right Or.inl)

theorem exists_claims? {g : Grammar} (hg : g.BodiesInRange) {a : Analysis} (hfirst : a.first.size = g.size)
    (hfollow : a.follow.size = g.size) :
    ∃ claims, g.claims? a = some claims ∧
      (∀ c, c ∈ claims ↔ ∃ r ∈ g.rules, r.Claims a.first.Holds a.follow.Holds c) ∧
      claims.Pairwise Cell.Earlier :=
  exists_claims?_of_le hg (Nat.le_of_eq hfirst.symm) (Nat.le_of_eq hfollow.symm)

end Grammar

end Predictive
