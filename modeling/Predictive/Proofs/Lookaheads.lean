import Predictive.Proofs.Claims
import Predictive.Session

/-!
# Where lookaheads stand

A table is keyed by lookaheads, although the claims that come from FOLLOW sets
are not looked at: FOLLOW sets hold nothing else. They do so over any FIRST
sets without nonterminals, however stale these are, and FIRST of a sequence has
no nonterminal if the sets have none. So every step of a session keeps the three
kinds of symbols where they belong, also where numbers are out of range, for
then the step fails.
-/

namespace Predictive

theorem Symbol.isLookahead_iff {a : Symbol} : a.isLookahead = true ↔ a.kind ≠ .nonTerminal ∧ a ≠ .epsilon := by
  cases a <;> simp [isLookahead, kind]

/-! ## Sets of one kind of symbols -/

/-- All members of all sets satisfy `P`. -/
def SetFamily.Only (P : Symbol → Prop) (f : SetFamily) : Prop := ∀ s ∈ f.sets, ∀ a ∈ s, P a

namespace SetFamily
variable {P : Symbol → Prop} {f g : SetFamily} {i : Nat} {s : SymbolSet}

theorem only_empty (n : Nat) : (empty n).Only P := by
  intro s hs a ha
  rw [List.eq_of_mem_replicate hs] at ha
  exact absurd ha (SymbolSet.not_mem_empty a)

theorem Only.get? (hf : f.Only P) (h : f.get? i = some s) : ∀ a ∈ s, P a := hf s (List.mem_of_getElem? h)

theorem Only.extend? (hf : f.Only P) (hs : ∀ a ∈ s, P a) (h : f.extend? i s = some g) : g.Only P := by
  obtain ⟨t, ht, rfl⟩ := Option.map_eq_some_iff.mp h
  intro u hu a ha
  rcases List.mem_or_eq_of_mem_set hu with hu | rfl
  · exact hf u hu a ha
  · rcases SymbolSet.mem_union.mp ha with ha | ha
    · exact hf.get? ht a ha
    · exact hs a ha

end SetFamily

theorem kind_of_firstOfSequence? {f : SetFamily} (hf : f.Only fun a => a.kind ≠ .nonTerminal) :
    ∀ {α : Production} {s : SymbolSet}, f.firstOfSequence? α = some s → ∀ a ∈ s, a.kind ≠ .nonTerminal
  | [], s, h => by
    cases h
    simp [Symbol.kind]
  | .terminal _ :: _, s, h | .endOfInput :: _, s, h => by
    cases h
    simp [Symbol.kind]
  | .epsilon :: α, s, h => kind_of_firstOfSequence? hf (α := α) h
  | .nonTerminal i :: α, s, h => by
    obtain ⟨t, ht, h⟩ := Option.bind_eq_some_iff.mp h
    have ht' := hf.get? ht
    split at h
    · obtain ⟨u, hu, rfl⟩ := Option.map_eq_some_iff.mp h
      intro a ha
      rcases SymbolSet.mem_union.mp ha with ha | ha
      · exact ht' a (SymbolSet.mem_erase.mp ha).1
      · exact kind_of_firstOfSequence? hf hu a ha
    · cases h
      exact ht'

/-! ## Passes and claims -/

namespace Grammar
variable {g : Grammar} {first follow f : SetFamily}

theorem only_firstPass? (hf : f.Only fun a => a.kind ≠ .nonTerminal) {f' : SetFamily}
    (h : g.firstPass? f = some f') : f'.Only fun a => a.kind ≠ .nonTerminal := by
  refine invariant_of_foldlM (fun r _ f f' hf h => ?_) hf h
  obtain ⟨s, hs, h⟩ := Option.bind_eq_some_iff.mp h
  exact hf.extend? (kind_of_firstOfSequence? hf hs) h

theorem only_followStep? (hfirst : first.Only fun a => a.kind ≠ .nonTerminal)
    (hf : f.Only fun a => a.isLookahead = true) {o : Occurrence} {f' : SetFamily}
    (h : followStep? first f o = some f') : f'.Only fun a => a.isLookahead = true := by
  obtain ⟨ahead, hahead, h⟩ := Option.bind_eq_some_iff.mp h
  obtain ⟨m, hm, h⟩ := Option.bind_eq_some_iff.mp h
  have hkind := kind_of_firstOfSequence? hfirst hahead
  have hopening : ∀ a ∈ ahead.erase .epsilon, a.isLookahead = true := by
    intro a ha
    obtain ⟨ha, hne⟩ := SymbolSet.mem_erase.mp ha
    exact Symbol.isLookahead_iff.mpr ⟨hkind a ha, hne⟩
  have hm' := hf.extend? hopening hm
  split at h
  · obtain ⟨s, hs, h⟩ := Option.bind_eq_some_iff.mp h
    exact hm'.extend? (hm'.get? hs) h
  · cases h
    exact hm'

theorem only_firstPasses? {families : List SetFamily} (h : g.firstPasses? = some families) :
    ∀ f ∈ families, f.Only fun a => a.kind ≠ .nonTerminal :=
  invariant_of_passes (fun _ _ hf hf' => only_firstPass? hf hf') (SetFamily.only_empty _) h

theorem only_followPasses? (hfirst : first.Only fun a => a.kind ≠ .nonTerminal) {families : List SetFamily}
    (h : g.followPasses? first = some families) : ∀ f ∈ families, f.Only fun a => a.isLookahead = true := by
  obtain ⟨f₀, hf₀, h⟩ := Option.bind_eq_some_iff.mp h
  have hstart : f₀.Only fun a => a.isLookahead = true :=
    (SetFamily.only_empty _).extend? (by simp [Symbol.isLookahead]) hf₀
  refine invariant_of_passes (fun f f' hf hf' => ?_) hstart h
  exact invariant_of_foldlM (fun _ _ _ _ hf hf' => only_followStep? hfirst hf hf') hf hf'

theorem isLookahead_of_claims? {a : Analysis} (hfollow : a.follow.Only fun t => t.isLookahead = true)
    {claims : List Cell} (h : g.claims? a = some claims) : ∀ c ∈ claims, c.slot.lookahead.isLookahead = true := by
  intro c hc
  obtain ⟨groups, hgroups, rfl⟩ := Option.map_eq_some_iff.mp h
  obtain ⟨cells, hcells, hc⟩ := List.mem_flatten.mp hc
  obtain ⟨r, _, hr⟩ := exists_of_mem_mapM hgroups hcells
  obtain ⟨ahead, _, hr⟩ := Option.bind_eq_some_iff.mp hr
  have hopening : ∀ e, c ∈ (ahead.toList.filter Symbol.isLookahead).map (fun t => Cell.mk ⟨r.left, t⟩ e) →
      c.slot.lookahead.isLookahead = true := by
    intro e hc
    obtain ⟨t, ht, _, rfl⟩ := mem_openingCells.mp hc
    exact ht
  split at hr
  · obtain ⟨after, hafter, rfl⟩ := Option.map_eq_some_iff.mp hr
    rcases List.mem_append.mp hc with hc | hc
    · exact hopening _ hc
    · obtain ⟨t, ht, rfl⟩ := List.mem_map.mp hc
      exact hfollow.get? hafter t ht
  · cases hr
    exact hopening _ hc

end Grammar

/-! ## Sessions -/

namespace Session

/-- Nonterminals are in no set, ε is in FIRST sets only, and neither is a key of the table. -/
structure LookaheadsOnly (s : Session) : Prop where
  first : s.sets.first.Only fun a => a.kind ≠ .nonTerminal
  follow : s.sets.follow.Only fun a => a.isLookahead = true
  table : ∀ c ∈ s.table.cells, c.slot.lookahead.isLookahead = true

theorem lookaheadsOnly_ofGrammar (g : Grammar) : (ofGrammar g).LookaheadsOnly where
  first := SetFamily.only_empty _
  follow := SetFamily.only_empty _
  table _ hc := absurd hc List.not_mem_nil

namespace LookaheadsOnly
variable {s t : Session} (hs : s.LookaheadsOnly)
include hs

theorem withFirst {first : SetFamily} (hfirst : first.Only fun a => a.kind ≠ .nonTerminal) :
    (s.withFirst first).LookaheadsOnly :=
  { hs with first := hfirst }

theorem withFollow {follow : SetFamily} (hfollow : follow.Only fun a => a.isLookahead = true) :
    (s.withFollow follow).LookaheadsOnly :=
  { hs with follow := hfollow }

theorem withTable {claims : List Cell} (h : s.grammar.claims? s.sets = some claims) :
    ({ s with table := (∅ : Table).fill claims } : Session).LookaheadsOnly :=
  { hs with table := Table.forall_cells_fill (Grammar.isLookahead_of_claims? hs.follow h) }

theorem fillStrictly (h : s.fillStrictly = .ok t) : t.LookaheadsOnly := by
  unfold Session.fillStrictly at h
  split at h
  · rename_i u hu
    cases h
    obtain ⟨claims, hclaims, hok⟩ := Option.map_eq_some_iff.mp hu
    rw [Table.eq_fill_of_fillStrictly hok]
    exact hs.withTable hclaims
  · rename_i k _
    cases hreport : k.report? s.grammar with
    | none => simp [hreport, orOutOfRange, Except.bind] at h
    | some r => simp [hreport, orOutOfRange, Except.bind] at h
  · cases h

theorem step {c : Step} (h : s.step c = .ok t) : t.LookaheadsOnly := by
  cases c with
  | load text =>
    cases hread : text.read with
    | error e => simp [Session.step, hread] at h
    | ok g =>
      simp only [Session.step, hread, Except.ok.injEq] at h
      exact h ▸ { hs with }
  | addProduction i p =>
    obtain ⟨g, _, rfl⟩ := Option.map_eq_some_iff.mp (eq_some_of_orOutOfRange h)
    exact { hs with }
  | setStart i =>
    cases h
    exact { hs with }
  | solveFirst limit =>
    obtain ⟨families, hfamilies, rfl⟩ := Option.map_eq_some_iff.mp (eq_some_of_orOutOfRange h)
    exact hs.withFirst (stateAfter_induction (SetFamily.only_empty _) (Grammar.only_firstPasses? hfamilies) limit)
  | solveFollow limit =>
    obtain ⟨families, hfamilies, rfl⟩ := Option.map_eq_some_iff.mp (eq_some_of_orOutOfRange h)
    have hfollow := Grammar.only_followPasses? hs.first hfamilies
    exact hs.withFollow (stateAfter_induction (SetFamily.only_empty _) hfollow limit)
  | clearFirst size =>
    cases h
    exact hs.withFirst (SetFamily.only_empty _)
  | clearFollow size =>
    cases h
    exact hs.withFollow (SetFamily.only_empty _)
  | fillTable =>
    obtain ⟨u, hu, rfl⟩ := Option.map_eq_some_iff.mp (eq_some_of_orOutOfRange h)
    obtain ⟨claims, hclaims, rfl⟩ := Option.map_eq_some_iff.mp hu
    exact hs.withTable hclaims
  | fillTableStrictly => exact hs.fillStrictly h

end LookaheadsOnly

/-- Whatever grammars are loaded and edited, and however the sets are solved and
tables filled from them, only lookaheads reach FOLLOW sets and keys of the table. -/
theorem lookaheadsOnly_run (g : Grammar) (steps : List Step) : ((ofGrammar g).run steps).LookaheadsOnly :=
  run_induction steps (lookaheadsOnly_ofGrammar g) fun _ _ _ _ hs ht => hs.step ht

end Session

end Predictive
