import Predictive.Proofs.Renaming

/-!
# Grammars that agree by name

A grammar may have terminals that another one lacks. Two grammars agree on what
is said of nonterminals and symbols if whatever is said in the one is said in
the other of the symbol of that name, so nothing is said of the terminals that
only one of them has. Embedded in each other by name, they agree on FIRST,
FOLLOW and the entries of their tables.
-/

namespace Predictive

/-- Where the table has a given entry. -/
def Table.Has (u : Table) (e : Entry) : Facts := fun i t => u.get? ⟨i, t⟩ = some e

/-- Where a given entry is claimed. -/
def Claimed (claims : List Cell) (e : Entry) : Facts := fun i t => ⟨⟨i, t⟩, e⟩ ∈ claims

namespace Grammar

structure AgreeOn (g h : Grammar) (P Q : Facts) : Prop where
  forth : ∀ i s, P i s → ∃ s', g.SameName h s s' ∧ Q i s'
  back : ∀ i s', Q i s' → ∃ s, g.SameName h s s' ∧ P i s

/-- The analyses end, with the same sets and tables by name. -/
def Agrees (g h : Grammar) : Prop :=
  ∃ a a' u u' strict strict', g.analysis? = some a ∧ h.analysis? = some a' ∧ g.table? a = some u ∧
    h.table? a' = some u' ∧ g.strictTable? a = some strict ∧ h.strictTable? a' = some strict' ∧
    a.first.size = a'.first.size ∧ a.follow.size = a'.follow.size ∧ g.AgreeOn h a.first.Holds a'.first.Holds ∧
    g.AgreeOn h a.follow.Holds a'.follow.Holds ∧ (∀ e, g.AgreeOn h (u.Has e) (u'.Has e)) ∧
    ((∃ v, strict = .ok v) ↔ ∃ v', strict' = .ok v') ∧
    ∀ v v', strict = .ok v → strict' = .ok v' → ∀ e, g.AgreeOn h (v.Has e) (v'.Has e)

variable {g h : Grammar}

theorem AgreeOn.symm {P Q : Facts} (hPQ : g.AgreeOn h P Q) : h.AgreeOn g Q P where
  forth i s' hs' := (hPQ.back i s' hs').imp fun _ => And.imp_left SameName.symm
  back i s hs := (hPQ.forth i s hs).imp fun _ => And.imp_left SameName.symm

theorem SameName.left_unique (hg : g.NamesDistinct) {r s s' : Symbol} (hr : g.SameName h r s')
    (hs : g.SameName h s s') : r = s := by
  obtain ⟨name, hname, hname'⟩ := hr
  obtain ⟨_, hsname, hsname'⟩ := hs
  rw [hname', Option.some.injEq] at hsname'
  subst hsname'
  exact hg r s name hname hsname

section
variable {claims claims' : List Cell} (hclaims : ∀ e, g.AgreeOn h (Claimed claims e) (Claimed claims' e))
  (hpair : claims.Pairwise Cell.Precedes) (hpair' : claims'.Pairwise Cell.Precedes)
include hclaims hpair hpair'

theorem AgreeOn.has_fill (hg : g.NamesDistinct) {e : Entry} {i : Nat} {t : Symbol}
    (ht : ((∅ : Table).fill claims).Has e i t) :
    ∃ t', g.SameName h t t' ∧ ((∅ : Table).fill claims').Has e i t' := by
  obtain ⟨he, hlast⟩ := (Table.get?_fill_iff hpair).mp ht
  obtain ⟨t', hname, he'⟩ := (hclaims e).forth i t he
  refine ⟨t', hname, (Table.get?_fill_iff hpair').mpr ⟨he', fun d hd => ?_⟩⟩
  obtain ⟨r, hr, hd⟩ := (hclaims d).back i t' hd
  rw [hr.left_unique hg hname] at hd
  exact hlast d hd

theorem AgreeOn.fill (hg : g.NamesDistinct) (hh : h.NamesDistinct) (e : Entry) :
    g.AgreeOn h (((∅ : Table).fill claims).Has e) (((∅ : Table).fill claims').Has e) where
  forth _ _ ht := has_fill hclaims hpair hpair' hg ht
  back _ _ ht := by
    obtain ⟨t, hname, ht⟩ := has_fill (fun e => (hclaims e).symm) hpair' hpair hh ht
    exact ⟨t, hname.symm, ht⟩

end

end Grammar

/-! ## Embeddings by name -/

namespace Renaming

/-- Nonterminals and productions keep their numbers, and a symbol its name,
unless the other grammar has no symbol of that name. -/
structure EmbedsByName (ρ : Renaming) (g h : Grammar) : Prop extends ρ.Embeds g h where
  nonTerminal : ∀ i < g.size, ρ.nonTerminal i = i
  production : ∀ i k, ρ.production i k = k
  sameName : ∀ s, g.Has s → h.Has (ρ.symbol s) → g.SameName h s (ρ.symbol s)

variable {ρ σ : Renaming} {g h : Grammar} {P Q : Facts}

theorem EmbedsByName.forth (hρ : ρ.EmbedsByName g h) (hP : ∀ i s, P i s → i < g.size ∧ g.Has s)
    (hQ : ∀ i s, Q i s → h.Has s) (hPQ : ∀ i s, P i s → Q (ρ.nonTerminal i) (ρ.symbol s)) {i : Nat} {s : Symbol}
    (hs : P i s) : ∃ s', g.SameName h s s' ∧ Q i s' := by
  obtain ⟨hi, hhas⟩ := hP i s hs
  have hs' := hPQ i s hs
  rw [hρ.nonTerminal i hi] at hs'
  exact ⟨ρ.symbol s, hρ.sameName s hhas (hQ i _ hs'), hs'⟩

section
variable (hρ : ρ.EmbedsByName g h) (hσ : σ.EmbedsByName h g)
include hρ hσ

theorem EmbedsByName.agreeOn (hP : ∀ i s, P i s → i < g.size ∧ g.Has s) (hQ : ∀ i s, Q i s → i < h.size ∧ h.Has s)
    (hPQ : ∀ i s, P i s → Q (ρ.nonTerminal i) (ρ.symbol s)) (hQP : ∀ i s, Q i s → P (σ.nonTerminal i) (σ.symbol s)) :
    g.AgreeOn h P Q where
  forth _ _ hs := hρ.forth hP (fun i s hs => (hQ i s hs).2) hPQ hs
  back _ _ hs := by
    obtain ⟨s, hname, hs⟩ := hσ.forth hQ (fun i s hs => (hP i s hs).2) hQP hs
    exact ⟨s, hname.symm, hs⟩

variable (hg : g.InRange) (hh : h.InRange) {first first' follow follow' : SetFamily} (hF : g.IsFirst first)
  (hF' : h.IsFirst first') (hP : g.IsFollow first follow) (hP' : h.IsFollow first' follow')
include hg hh hF hF'

theorem EmbedsByName.agreeOn_first : g.AgreeOn h first.Holds first'.Holds := by
  apply hρ.agreeOn hσ
  · exact fun _ _ hs => ⟨hF.size ▸ hs.lt_size, hF.has hg.symbols hs⟩
  · exact fun _ _ hs => ⟨hF'.size ▸ hs.lt_size, hF'.has hh.symbols hs⟩
  · exact fun _ _ => hρ.holds_first hF hF'
  · exact fun _ _ => hσ.holds_first hF' hF

include hP hP'

theorem EmbedsByName.agreeOn_follow : g.AgreeOn h follow.Holds follow'.Holds := by
  apply hρ.agreeOn hσ
  · exact fun _ _ hs => ⟨hP.size ▸ hs.lt_size, hP.has hg.symbols (fun _ _ => hF.has hg.symbols) hs⟩
  · exact fun _ _ hs => ⟨hP'.size ▸ hs.lt_size, hP'.has hh.symbols (fun _ _ => hF'.has hh.symbols) hs⟩
  · exact fun _ _ => hρ.holds_follow hF hF' hP hP'
  · exact fun _ _ => hσ.holds_follow hF' hF hP' hP

theorem EmbedsByName.agreeOn_claims {claims claims' : List Cell}
    (hmem : ∀ c, c ∈ claims ↔ ∃ r ∈ g.rules, r.Claims first.Holds follow.Holds c)
    (hmem' : ∀ c, c ∈ claims' ↔ ∃ r ∈ h.rules, r.Claims first'.Holds follow'.Holds c) (e : Entry) :
    g.AgreeOn h (Claimed claims e) (Claimed claims' e) := by
  apply hρ.agreeOn hσ
  · intro i t ht
    obtain ⟨r, hr, hc⟩ := (hmem _).mp ht
    exact Grammar.has_of_claims hF hP hg hr hc
  · intro i t ht
    obtain ⟨r, hr, hc⟩ := (hmem' _).mp ht
    exact Grammar.has_of_claims hF' hP' hh hr hc
  · intro i t ht
    have hcell := hρ.mem_claims hF hF' hP hP' hmem hmem' ht
    simpa [cell, hρ.production, Claimed] using hcell
  · intro i t ht
    have hcell := hσ.mem_claims hF' hF hP' hP hmem' hmem ht
    simpa [cell, hσ.production, Claimed] using hcell

end

theorem EmbedsByName.agrees (hρ : ρ.EmbedsByName g h) (hσ : σ.EmbedsByName h g) (hsize : g.size = h.size)
    (hg : g.InRange) (hh : h.InRange) (hgnames : g.NamesDistinct) (hhnames : h.NamesDistinct) : g.Agrees h := by
  obtain ⟨a, claims, ha, hF, hP, _, htable, hstrict, hmem, hpair⟩ := Grammar.exists_tables hg.bodies hg.start
  obtain ⟨a', claims', ha', hF', hP', _, htable', hstrict', hmem', hpair'⟩ :=
    Grammar.exists_tables hh.bodies hh.start
  have hentries := Grammar.AgreeOn.fill (hρ.agreeOn_claims hσ hg hh hF hF' hP hP' hmem hmem') hpair hpair'
    hgnames hhnames
  refine ⟨a, a', _, _, _, _, ha, ha', htable, htable', hstrict, hstrict', ?_, ?_, ?_, ?_, hentries, ?_, ?_⟩
  · rw [hF.size, hF'.size, hsize]
  · rw [hP.size, hP'.size, hsize]
  · exact hρ.agreeOn_first hσ hg hh hF hF'
  · exact hρ.agreeOn_follow hσ hg hh hF hF' hP hP'
  · constructor
    · exact hσ.exists_fillStrictly hF' hF hP' hP hmem' hmem
    · exact hρ.exists_fillStrictly hF hF' hP hP' hmem hmem'
  · intro v v' hv hv'
    rw [Table.eq_fill_of_fillStrictly hv, Table.eq_fill_of_fillStrictly hv']
    exact hentries

end Renaming

end Predictive
