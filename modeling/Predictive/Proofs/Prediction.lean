import Predictive.Proofs.Claims
import Predictive.Proofs.Follow

/-!
# Tables predict leftmost derivations

Where a leftmost derivation of a terminal string uses a production, the
production claims the cell of its nonterminal under the next symbol of the
string. The plain table has there the last production that claims the cell, and
a strict table the only one, so it leaves no choice to the derivation.
-/

namespace Predictive

namespace Grammar

/-! ## Leftmost derivations of terminal strings -/

def Terminals (w : List Symbol) : Prop := ∀ s ∈ w, IsTerminal s

theorem not_mem_terminals {w : List Symbol} (hw : Terminals w) (i : Nat) : ¬ .nonTerminal i ∈ w := by
  intro h
  obtain ⟨_, e⟩ := hw _ h
  cases e

theorem append_eq_terminals_append {w w' φ v : List Symbol} {i : Nat} (hw : Terminals w) (hw' : Terminals w')
    (h : w ++ φ = w' ++ .nonTerminal i :: v) : ∃ x, Terminals x ∧ w' = w ++ x ∧ φ = x ++ .nonTerminal i :: v := by
  rcases append_eq_append_cons h with ⟨x, rfl, _⟩ | ⟨x, rfl, rfl⟩
  · exact absurd (List.mem_append_right _ List.mem_cons_self) (not_mem_terminals hw i)
  · exact ⟨x, fun s hs => hw' s (List.mem_append_right w hs), rfl, rfl⟩

theorem first_nonTerminal_unique {w w' v v' : List Symbol} {i i' : Nat} (hw : Terminals w) (hw' : Terminals w')
    (h : w ++ .nonTerminal i :: v = w' ++ .nonTerminal i' :: v') : w = w' ∧ i = i' ∧ v = v' := by
  obtain ⟨x, hx, rfl, hφ⟩ := append_eq_terminals_append hw hw' h
  cases x with
  | nil =>
    injection hφ with hi hv
    injection hi with hi
    exact ⟨(List.append_nil w).symm, hi, hv⟩
  | cons b x =>
    injection hφ with hb
    exact absurd (hb ▸ List.mem_cons_self) (not_mem_terminals hx i)

section
variable {g : Grammar}

theorem ProducesLeftmost.exists_parts {k : Nat} {a b : List Symbol} (h : g.ProducesLeftmost k a b) :
    ∃ w i p v, Terminals w ∧ g.production? i k = some p ∧ a = w ++ .nonTerminal i :: v ∧ b = w ++ p ++ v := by
  cases h with
  | @expand i p w hw v h => exact ⟨w, i, p, v, hw, h, rfl, rfl⟩

theorem not_producesLeftmost_terminals {k : Nat} {w b : List Symbol} (hw : Terminals w) :
    ¬ g.ProducesLeftmost k w b := by
  intro h
  obtain ⟨_, i, _, _, _, _, rfl, _⟩ := h.exists_parts
  exact not_mem_terminals hw i (List.mem_append_right _ List.mem_cons_self)

theorem ProducesLeftmost.strip {k : Nat} {w φ ψ : List Symbol} (hw : Terminals w)
    (h : g.ProducesLeftmost k (w ++ φ) ψ) : ∃ φ', ψ = w ++ φ' ∧ g.ProducesLeftmost k φ φ' := by
  obtain ⟨w', i, p, v, hw', hp, hφ, rfl⟩ := h.exists_parts
  obtain ⟨x, hx, rfl, rfl⟩ := append_eq_terminals_append hw hw' hφ
  refine ⟨x ++ p ++ v, ?_, .expand hx v hp⟩
  simp only [List.append_assoc]

theorem DerivesLeftmost.strip {ks : List Nat} {w φ ψ : List Symbol} (hw : Terminals w)
    (h : g.DerivesLeftmost ks (w ++ φ) ψ) : ∃ φ', ψ = w ++ φ' ∧ g.DerivesLeftmost ks φ φ' := by
  generalize hχ : w ++ φ = χ at h
  induction h generalizing φ with
  | refl => exact ⟨φ, hχ.symm, .refl φ⟩
  | step hs _ ih =>
    subst hχ
    obtain ⟨φ', rfl, hs'⟩ := hs.strip hw
    obtain ⟨φ'', hψ, h'⟩ := ih rfl
    exact ⟨φ'', hψ, .step hs' h'⟩

theorem DerivesLeftmost.strip_terminals {ks : List Nat} {w φ v : List Symbol} (hw : Terminals w)
    (h : g.DerivesLeftmost ks (w ++ φ) (w ++ v)) : g.DerivesLeftmost ks φ v := by
  obtain ⟨φ', e, h'⟩ := h.strip hw
  rw [List.append_cancel_left e]
  exact h'

theorem DerivesLeftmost.snoc {k : Nat} {ks : List Nat} {a b c : List Symbol} (h : g.DerivesLeftmost ks a b)
    (hs : g.ProducesLeftmost k b c) : g.DerivesLeftmost (ks ++ [k]) a c := by
  induction h with
  | refl => exact .step hs (.refl c)
  | step hs' _ ih => exact .step hs' (ih hs)

/-! ## Uses of a production -/

/-- A leftmost derivation of a terminal string uses production `k` of
nonterminal `i` where `t` is the next symbol of the string, or the end. -/
def Uses (g : Grammar) (i k : Nat) (t : Symbol) : Prop :=
  ∃ w v γ α ks ls, Terminals w ∧ Terminals v ∧
    g.DerivesLeftmost ks [.nonTerminal g.start] (w ++ .nonTerminal i :: γ) ∧ g.production? i k = some α ∧
    g.DerivesLeftmost ls (w ++ α ++ γ) (w ++ v) ∧ t = v.headD .endOfInput

theorem isLookahead_headD {v : List Symbol} (hv : Terminals v) : (v.headD .endOfInput).isLookahead = true := by
  cases v with
  | nil => rfl
  | cons s v =>
    obtain ⟨i, rfl⟩ := hv s List.mem_cons_self
    rfl

theorem opens_terminals {P : Facts} {v : List Symbol} (hv : Terminals v) :
    Opens P (v ++ [.endOfInput]) (v.headD .endOfInput) := by
  cases v with
  | nil => rfl
  | cons s v =>
    obtain ⟨i, rfl⟩ := hv s List.mem_cons_self
    rfl

theorem Uses.exists_claim {F P : Facts} (hF : g.FirstClosed F) (hP : g.FollowClosed F P) {i k : Nat} {t : Symbol}
    (h : g.Uses i k t) : ∃ r ∈ g.rules, ∃ c, r.Claims F P c ∧ c.slot = ⟨i, t⟩ ∧ c.entry.production = k := by
  obtain ⟨w, v, γ, α, ks, ls, hw, hv, hstart, hα, hend, rfl⟩ := h
  rw [List.append_assoc] at hend
  -- the end of input is carried along, so that every string has a next symbol
  have hstart' := hstart.derives.append [] [.endOfInput]
  have hend' := (hend.strip_terminals hw).derives.append [] [.endOfInput]
  simp only [List.nil_append, List.append_assoc, List.cons_append] at hstart' hend'
  have hguarded := guarded_of_derives hF hP hstart' (guarded_start hP.start)
  have hopens := opens_of_derives hF hend' (opens_terminals hv)
  refine ⟨⟨i, k, α⟩, mem_rules.mpr hα, ?_⟩
  rcases (opens_append α (γ ++ [.endOfInput])).mp hopens with ⟨hα', _⟩ | ⟨hε, hγ⟩
  · exact ⟨_, .opening (isLookahead_headD hv) hα', rfl, rfl⟩
  · have hne := ne_epsilon_of_isLookahead (isLookahead_headD hv)
    exact ⟨_, .following hε (hguarded w i _ rfl _ hγ hne), rfl, rfl⟩

/-- If the entries of a table are the productions used, a terminal string has one leftmost derivation. -/
theorem derivesLeftmost_unique {u : Table}
    (hu : ∀ i k t, g.Uses i k t → ∃ e, u.get? ⟨i, t⟩ = some e ∧ e.production = k) {x : List Symbol}
    (hx : Terminals x) {ks ls js : List Nat} {φ : List Symbol}
    (hφ : g.DerivesLeftmost js [.nonTerminal g.start] φ) (hks : g.DerivesLeftmost ks φ x)
    (hls : g.DerivesLeftmost ls φ x) : ks = ls := by
  induction hks generalizing ls js with
  | refl =>
    cases hls with
    | refl => rfl
    | step hs _ => exact absurd hs (not_producesLeftmost_terminals hx)
  | @step k ks a b x hs h ih =>
    cases hls with
    | refl => exact absurd hs (not_producesLeftmost_terminals hx)
    | @step l ls _ b' _ hs' h' =>
      obtain ⟨w, i, p, γ, hw, hp, rfl, rfl⟩ := hs.exists_parts
      obtain ⟨w', i', p', γ', hw', hp', e, rfl⟩ := hs'.exists_parts
      obtain ⟨rfl, rfl, rfl⟩ := first_nonTerminal_unique hw hw' e
      have hstrip := h
      rw [List.append_assoc] at hstrip
      obtain ⟨v, rfl, _⟩ := hstrip.strip hw
      have hv : Terminals v := fun s hs => hx s (List.mem_append_right w hs)
      obtain ⟨e, he, hk⟩ := hu i k _ ⟨w, v, γ, p, js, ks, hw, hv, hφ, hp, h, rfl⟩
      obtain ⟨e', he', hl⟩ := hu i l _ ⟨w, v, γ, p', js, ls, hw, hv, hφ, hp', h', rfl⟩
      rw [he, Option.some.injEq] at he'
      have hkl : k = l := by rw [← hk, ← hl, he']
      subst hkl
      rw [hp, Option.some.injEq] at hp'
      subst hp'
      rw [ih hx (hφ.snoc hs) h']

end

/-! ## Tables -/

theorem exists_tables {g : Grammar} (hg : g.BodiesInRange) (hstart : g.start < g.size) :
    ∃ a claims, g.analysis? = some a ∧ g.IsFirst a.first ∧ g.IsFollow a.first a.follow ∧
      g.claims? a = some claims ∧ g.table? a = some ((∅ : Table).fill claims) ∧
      g.strictTable? a = some ((∅ : Table).fillStrictly claims) ∧
      (∀ c, c ∈ claims ↔ ∃ r ∈ g.rules, r.Claims a.first.Holds a.follow.Holds c) ∧
      claims.Pairwise Cell.Precedes := by
  obtain ⟨a, ha, hF, hP⟩ := exists_analysis? hg hstart
  obtain ⟨claims, hclaims, hmem, hpair⟩ := exists_claims? hg hF.size hP.size
  refine ⟨a, claims, ha, hF, hP, hclaims, ?_, ?_, hmem, hpair.imp Cell.Earlier.precedes⟩
  · unfold table?
    rw [hclaims]
    rfl
  · unfold strictTable?
    rw [hclaims]
    rfl

/-- Where a leftmost derivation uses a production, the plain table has it or a
later one and a strict table has it. So a grammar with a strict table gives a
terminal string at most one leftmost derivation. -/
theorem table_predicts {t : GrammarText} {g : Grammar} (h : t.read = .ok g) :
    ∃ a table strict, g.analysis? = some a ∧ g.table? a = some table ∧ g.strictTable? a = some strict ∧
      (∀ i k b, g.Uses i k b →
        (∃ e, table.get? ⟨i, b⟩ = some e ∧ k ≤ e.production) ∧
        ∀ u, strict = .ok u → ∃ e, u.get? ⟨i, b⟩ = some e ∧ e.production = k) ∧
      ∀ u, strict = .ok u → ∀ w ks ls, Terminals w → g.DerivesLeftmost ks [.nonTerminal g.start] w →
        g.DerivesLeftmost ls [.nonTerminal g.start] w → ks = ls := by
  have hg := GrammarText.wellFormed_of_read h
  obtain ⟨a, claims, ha, hF, hP, _, htable, hstrict, hmem, hpair⟩ := exists_tables hg.bodies hg.start
  have huses : ∀ i k b, g.Uses i k b → ∃ c ∈ claims, c.slot = ⟨i, b⟩ ∧ c.entry.production = k := by
    intro i k b hb
    obtain ⟨r, hr, c, hc, hslot, hk⟩ := hb.exists_claim hF.closed hP.closed
    exact ⟨c, (hmem c).mpr ⟨r, hr, hc⟩, hslot, hk⟩
  have hplain : ∀ i k b, g.Uses i k b →
      ∃ e, ((∅ : Table).fill claims).get? ⟨i, b⟩ = some e ∧ k ≤ e.production := by
    intro i k b hb
    obtain ⟨c, hc, hslot, rfl⟩ := huses i k b hb
    rw [← hslot]
    exact Table.exists_entry_ge hpair hc
  have hexact : ∀ u, (∅ : Table).fillStrictly claims = .ok u → ∀ i k b, g.Uses i k b →
      ∃ e, u.get? ⟨i, b⟩ = some e ∧ e.production = k := by
    intro u hu i k b hb
    obtain ⟨e, he, _⟩ := hplain i k b hb
    obtain ⟨c, hc, hslot, rfl⟩ := huses i k b hb
    refine ⟨e, (Table.eq_fill_of_fillStrictly hu) ▸ he, ?_⟩
    exact Table.production_eq_of_fillStrictly hu (Table.mem_of_get?_fill he) hc hslot.symm
  refine ⟨a, _, _, ha, htable, hstrict, fun i k b hb => ⟨hplain i k b hb, fun u hu => hexact u hu i k b hb⟩, ?_⟩
  intro u hu w ks ls hw hks hls
  exact derivesLeftmost_unique (hexact u hu) hw (.refl _) hks hls

/-- The leftmost derivation of `id` in sums and products is the only one, and at
its end the strict table has the empty production of `Y`. -/
theorem table_predicts_expression : expressionText.read = .ok expressionText.grammar ∧
    (∀ ks, expressionText.grammar.DerivesLeftmost ks [.nonTerminal 0] [.terminal 4] ↔ ks = [0, 0, 1, 1, 1]) ∧
    expressionText.grammar.Uses 3 1 .endOfInput ∧
    ∃ a u e, expressionText.grammar.analysis? = some a ∧ expressionText.grammar.strictTable? a = some (.ok u) ∧
      u.get? ⟨3, .endOfInput⟩ = some e ∧ e.production = 1 := by
  have hid : Terminals [.terminal 4] := fun s hs => ⟨4, List.mem_singleton.mp hs⟩
  have hnil : Terminals [] := fun s hs => absurd hs List.not_mem_nil
  have hE : expressionText.grammar.ProducesLeftmost 0 [.nonTerminal 0] [.nonTerminal 2, .nonTerminal 1] :=
    .expand (p := [.nonTerminal 2, .nonTerminal 1]) hnil [] (by decide +kernel)
  have hT : expressionText.grammar.ProducesLeftmost 0 [.nonTerminal 2, .nonTerminal 1]
      [.nonTerminal 4, .nonTerminal 3, .nonTerminal 1] :=
    .expand (p := [.nonTerminal 4, .nonTerminal 3]) hnil [.nonTerminal 1] (by decide +kernel)
  have hF : expressionText.grammar.ProducesLeftmost 1 [.nonTerminal 4, .nonTerminal 3, .nonTerminal 1]
      [.terminal 4, .nonTerminal 3, .nonTerminal 1] :=
    .expand (p := [.terminal 4]) hnil [.nonTerminal 3, .nonTerminal 1] (by decide +kernel)
  have hY : expressionText.grammar.ProducesLeftmost 1 [.terminal 4, .nonTerminal 3, .nonTerminal 1]
      [.terminal 4, .nonTerminal 1] :=
    .expand (p := []) hid [.nonTerminal 1] (by decide +kernel)
  have hR : expressionText.grammar.ProducesLeftmost 1 [.terminal 4, .nonTerminal 1] [.terminal 4] :=
    .expand (p := []) hid [] (by decide +kernel)
  have hbefore : expressionText.grammar.DerivesLeftmost [0, 0, 1] [.nonTerminal 0]
      [.terminal 4, .nonTerminal 3, .nonTerminal 1] := .step hE (.step hT (.step hF (.refl _)))
  have hall : expressionText.grammar.DerivesLeftmost [0, 0, 1, 1, 1] [.nonTerminal 0] [.terminal 4] :=
    .step hE (.step hT (.step hF (.step hY (.step hR (.refl _)))))
  have hY' : expressionText.grammar.production? 3 1 = some [] := by decide +kernel
  have huse : expressionText.grammar.Uses 3 1 .endOfInput :=
    ⟨[.terminal 4], [], [.nonTerminal 1], [], [0, 0, 1], [1], hid, hnil, hbefore, hY', .step hR (.refl _), rfl⟩
  obtain ⟨a, table, strict, ha, _, hstrict, hcells, hunique⟩ := table_predicts read_expressionText
  have hok : ((expressionText.grammar.analysis?.bind expressionText.grammar.strictTable?).map
      Except.isOk) = some true := by decide +kernel
  rw [ha, Option.bind_some, hstrict, Option.map_some, Option.some.injEq] at hok
  cases strict with
  | error c => cases hok
  | ok u =>
    obtain ⟨e, he, hk⟩ := (hcells 3 1 _ huse).2 u rfl
    refine ⟨read_expressionText, fun ks => ⟨fun h => ?_, fun h => h ▸ hall⟩, huse, a, u, e, ha, hstrict, he, hk⟩
    exact hunique u rfl _ _ _ hid h hall

end Grammar

end Predictive
