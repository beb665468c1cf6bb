import Predictive.Proofs.Nullability
import Predictive.Proofs.Strict

/-!
# Renamed grammars

A renaming maps the numbers of terminals, nonterminals and productions. It
embeds a grammar in another if it takes the start to the start and rules to
rules. The sets of the first grammar then lie in those of the second, and the
first has a strict table if the second does. Where two embeddings undo each
other, the sets are the same up to names, and so are the strict tables.
-/

namespace Predictive

/-- New numbers; those of productions may differ from nonterminal to nonterminal. -/
structure Renaming where
  terminal : Nat → Nat
  nonTerminal : Nat → Nat
  production : Nat → Nat → Nat

namespace Renaming
variable (ρ σ : Renaming)

def symbol : Symbol → Symbol
  | .terminal i => .terminal (ρ.terminal i)
  | .nonTerminal i => .nonTerminal (ρ.nonTerminal i)
  | .epsilon => .epsilon
  | .endOfInput => .endOfInput

def rule (r : Rule) : Rule := ⟨ρ.nonTerminal r.left, ρ.production r.left r.index, r.right.map ρ.symbol⟩

def cell (c : Cell) : Cell :=
  ⟨⟨ρ.nonTerminal c.slot.row, ρ.symbol c.slot.lookahead⟩,
    ⟨ρ.production c.slot.row c.entry.production, c.entry.vanishing⟩⟩

structure Embeds (g h : Grammar) : Prop where
  start : ρ.nonTerminal g.start = h.start
  rules : ∀ r ∈ g.rules, ρ.rule r ∈ h.rules
  production_injective : ∀ r ∈ g.rules, ∀ s ∈ g.rules, r.left = s.left →
    ρ.production r.left r.index = ρ.production r.left s.index → r.index = s.index

def KeepsNames (g h : Grammar) : Prop := ∀ s name, g.nameOf? s = some name → h.nameOf? (ρ.symbol s) = some name

variable {ρ σ}

@[simp] theorem symbol_eq_epsilon_iff {s : Symbol} : ρ.symbol s = .epsilon ↔ s = .epsilon := by
  cases s <;> simp [symbol]

@[simp] theorem isLookahead_symbol (s : Symbol) : (ρ.symbol s).isLookahead = s.isLookahead := by
  cases s <;> rfl

theorem kind_symbol (s : Symbol) : (ρ.symbol s).kind = s.kind := by
  cases s <;> rfl

/-! ## One embedding -/

theorem opens_map {P Q : Facts} (h : ∀ i a, P i a → Q (ρ.nonTerminal i) (ρ.symbol a)) {a : Symbol} :
    ∀ {α : Production}, Opens P α a → Opens Q (α.map ρ.symbol) (ρ.symbol a)
  | [], ha => symbol_eq_epsilon_iff.mpr ha
  | .epsilon :: α, ha => opens_map (α := α) h ha
  | .terminal _ :: _, ha => congrArg ρ.symbol ha
  | .endOfInput :: _, ha => congrArg ρ.symbol ha
  | .nonTerminal i :: _, .inl ⟨hi, hne⟩ => .inl ⟨h i a hi, fun e => hne (symbol_eq_epsilon_iff.mp e)⟩
  | .nonTerminal i :: _, .inr ⟨hi, ha⟩ => .inr ⟨h i .epsilon hi, opens_map h ha⟩

variable {g h : Grammar} (hρ : ρ.Embeds g h)
include hρ

theorem Embeds.occurrence {o : Occurrence} (ho : o ∈ g.occurrences) :
    (⟨ρ.nonTerminal o.left, ρ.nonTerminal o.nonTerminal, o.rest.map ρ.symbol⟩ : Occurrence) ∈ h.occurrences := by
  obtain ⟨r, hr, hleft, u, hright⟩ := Grammar.mem_occurrences.mp ho
  apply Grammar.mem_occurrences.mpr
  exact ⟨ρ.rule r, hρ.rules r hr, congrArg ρ.nonTerminal hleft, u.map ρ.symbol, by simp [rule, hright, symbol]⟩

section
variable {first first' : SetFamily} (hF : g.IsFirst first) (hF' : h.IsFirst first')
include hF hF'

theorem Embeds.holds_first {i : Nat} {a : Symbol} (ha : first.Holds i a) :
    first'.Holds (ρ.nonTerminal i) (ρ.symbol a) := by
  refine hF.least (fun i a => first'.Holds (ρ.nonTerminal i) (ρ.symbol a)) ?_ i a ha
  intro r hr a hopens
  exact hF'.closed _ (hρ.rules r hr) _ (opens_map (fun _ _ h => h) hopens)

theorem Embeds.opens {α : Production} {a : Symbol} (ha : Opens first.Holds α a) :
    Opens first'.Holds (α.map ρ.symbol) (ρ.symbol a) :=
  opens_map (fun _ _ => hρ.holds_first hF hF') ha

variable {follow follow' : SetFamily} (hP : g.IsFollow first follow) (hP' : h.IsFollow first' follow')
include hP hP'

theorem Embeds.holds_follow {i : Nat} {a : Symbol} (ha : follow.Holds i a) :
    follow'.Holds (ρ.nonTerminal i) (ρ.symbol a) := by
  refine hP.least (fun i a => follow'.Holds (ρ.nonTerminal i) (ρ.symbol a)) ⟨?_, ?_, ?_⟩ i a ha
  · exact hρ.start ▸ hP'.closed.start
  · intro o ho a hopens hne
    apply hP'.closed.opening _ (hρ.occurrence ho) _ (hρ.opens hF hF' hopens)
    simpa using hne
  · intro o ho hε a ha
    exact hP'.closed.inherited _ (hρ.occurrence ho) (hρ.opens hF hF' hε) _ ha

theorem Embeds.claims {r : Rule} {c : Cell} (hc : r.Claims first.Holds follow.Holds c) :
    (ρ.rule r).Claims first'.Holds follow'.Holds (ρ.cell c) := by
  cases hc with
  | opening hlook hopens => exact .opening (by simpa using hlook) (hρ.opens hF hF' hopens)
  | following hε ha => exact .following (hρ.opens hF hF' hε) (hρ.holds_follow hF hF' hP hP' ha)

section
variable {claims claims' : List Cell} (hmem : ∀ c, c ∈ claims ↔ ∃ r ∈ g.rules, r.Claims first.Holds follow.Holds c)
  (hmem' : ∀ c, c ∈ claims' ↔ ∃ r ∈ h.rules, r.Claims first'.Holds follow'.Holds c)
include hmem hmem'

theorem Embeds.mem_claims {c : Cell} (hc : c ∈ claims) : ρ.cell c ∈ claims' := by
  obtain ⟨r, hr, hrc⟩ := (hmem c).mp hc
  exact (hmem' _).mpr ⟨ρ.rule r, hρ.rules r hr, hρ.claims hF hF' hP hP' hrc⟩

theorem Embeds.exists_fillStrictly (hok : ∃ u', (∅ : Table).fillStrictly claims' = .ok u') :
    ∃ u, (∅ : Table).fillStrictly claims = .ok u := by
  rw [Table.exists_fillStrictly_empty_iff] at hok ⊢
  intro c hc d hd hslot
  have hcell := hok _ (hρ.mem_claims hF hF' hP hP' hmem hmem' hc) _ (hρ.mem_claims hF hF' hP hP' hmem hmem' hd)
    (by simp [cell, hslot])
  obtain ⟨r, hr, hrc⟩ := (hmem c).mp hc
  obtain ⟨s, hs, hsd⟩ := (hmem d).mp hd
  have hleft : r.left = s.left := by rw [← hrc.row, ← hsd.row, hslot]
  rw [hrc.production, hsd.production]
  apply hρ.production_injective r hr s hs hleft
  simpa [cell, hrc.row, hsd.row, hrc.production, hsd.production, hleft] using hcell

theorem Embeds.get?_strict (hpair' : claims'.Pairwise Cell.Precedes) {u u' : Table}
    (hu : (∅ : Table).fillStrictly claims = .ok u) (hu' : (∅ : Table).fillStrictly claims' = .ok u') {c : Cell}
    (hc : u.get? c.slot = some c.entry) : u'.get? (ρ.cell c).slot = some (ρ.cell c).entry := by
  rw [Table.eq_fill_of_fillStrictly hu] at hc
  rw [Table.eq_fill_of_fillStrictly hu']
  apply Table.get?_fill_of_nodup (Grammar.nodup_slots hF' hP' hmem' hu' hpair')
  exact hρ.mem_claims hF hF' hP hP' hmem hmem' (Table.mem_of_get?_fill hc)

end

end

end Renaming

/-! ## Symbols with one name -/

namespace Grammar
variable (g h : Grammar)

def SameName (s s' : Symbol) : Prop := ∃ name, g.nameOf? s = some name ∧ h.nameOf? s' = some name

/-- The two entries have one right side, and both or none of them vanish. -/
def SameEntry (i i' : Nat) (e e' : Entry) : Prop :=
  e.vanishing = e'.vanishing ∧ ∃ names, (g.production? i e.production).bind g.productionNames? = some names ∧
    (h.production? i' e'.production).bind h.productionNames? = some names

/-- The names put the symbols of the grammars in a bijection. -/
structure SymbolsMatch : Prop where
  forth : ∀ s, g.Has s → ∃ s', g.SameName h s s'
  back : ∀ s', h.Has s' → ∃ s, g.SameName h s s'
  one_to_one : ∀ r r' s s', g.SameName h r r' → g.SameName h s s' → (r = s ↔ r' = s')
  kind : ∀ s s', g.SameName h s s' → s.kind = s'.kind

structure SetsMatch (f f' : SetFamily) : Prop where
  size_left : f.size = g.size
  size_right : f'.size = h.size
  has_left : ∀ i s, f.Holds i s → g.Has s
  has_right : ∀ i s, f'.Holds i s → h.Has s
  holds_iff : ∀ i i' s s', g.SameName h (.nonTerminal i) (.nonTerminal i') → g.SameName h s s' →
    (f.Holds i s ↔ f'.Holds i' s')

structure TablesMatch (u u' : Table) : Prop where
  has_left : ∀ slot e, u.get? slot = some e → slot.row < g.size ∧ g.Has slot.lookahead
  has_right : ∀ slot e, u'.get? slot = some e → slot.row < h.size ∧ h.Has slot.lookahead
  get? : ∀ i i' t t', g.SameName h (.nonTerminal i) (.nonTerminal i') → g.SameName h t t' →
    Option.Rel (g.SameEntry h i i') (u.get? ⟨i, t⟩) (u'.get? ⟨i', t'⟩)

def NamesDistinct (g : Grammar) : Prop := ∀ s s' name, g.nameOf? s = some name → g.nameOf? s' = some name → s = s'

variable {g h}

theorem SameName.has {s s' : Symbol} (hs : g.SameName h s s') : g.Has s := by
  obtain ⟨name, hname, _⟩ := hs
  rw [← nameOf?_isSome, hname]
  rfl

theorem SameName.symm {s s' : Symbol} (hs : g.SameName h s s') : h.SameName g s' s := by
  obtain ⟨name, hname, hname'⟩ := hs
  exact ⟨name, hname', hname⟩

end Grammar

/-! ## Renamings that keep names -/

namespace Renaming
variable {ρ σ : Renaming} {g h : Grammar}

/-- A symbol with a name goes to the symbol of that name, if there is one. -/
def Respects (ρ : Renaming) (g h : Grammar) : Prop := ∀ s s', g.SameName h s s' → ρ.symbol s = s'

theorem KeepsNames.respects (hρ : ρ.KeepsNames g h) (hh : h.NamesDistinct) : ρ.Respects g h := by
  rintro s s' ⟨name, hs, hs'⟩
  exact hh _ _ name (hρ s name hs) hs'

theorem KeepsNames.sameName (hρ : ρ.KeepsNames g h) {s : Symbol} (hs : g.Has s) : g.SameName h s (ρ.symbol s) := by
  obtain ⟨name, hname⟩ := Grammar.exists_nameOf? hs
  exact ⟨name, hname, hρ s name hname⟩

theorem KeepsNames.mapM (hρ : ρ.KeepsNames g h) {p : Production} {names : List String}
    (hp : p.mapM g.nameOf? = some names) : (p.map ρ.symbol).mapM h.nameOf? = some names := by
  induction p generalizing names with
  | nil => exact hp
  | cons s p ih =>
    rw [List.mapM_cons] at hp
    obtain ⟨name, hname, hp⟩ := Option.bind_eq_some_iff.mp hp
    obtain ⟨rest, hrest, e⟩ := Option.bind_eq_some_iff.mp hp
    rw [List.map_cons, List.mapM_cons, hρ s name hname, ih hrest]
    exact e

theorem KeepsNames.productionNames? (hρ : ρ.KeepsNames g h) {p : Production} {names : List String}
    (hp : g.productionNames? p = some names) : h.productionNames? (p.map ρ.symbol) = some names := by
  unfold Grammar.productionNames? at *
  rw [List.isEmpty_map]
  by_cases e : p.isEmpty
  · rwa [if_pos e] at hp ⊢
  · rw [if_neg e] at hp ⊢
    exact hρ.mapM hp

theorem Embeds.sameEntry (hρ : ρ.Embeds g h) (hnames : ρ.KeepsNames g h) {r : Rule} (hr : r ∈ g.rules)
    (hsymbols : ∀ s ∈ r.right, g.Has s) {e : Entry} (he : e.production = r.index) :
    g.SameEntry h r.left (ρ.nonTerminal r.left) e ⟨ρ.production r.left e.production, e.vanishing⟩ := by
  obtain ⟨names, hright⟩ := Grammar.exists_productionNames? hsymbols
  have hprod' : h.production? (ρ.nonTerminal r.left) (ρ.production r.left r.index) = some (r.right.map ρ.symbol) :=
    Grammar.mem_rules.mp (hρ.rules r hr)
  refine ⟨rfl, names, ?_, ?_⟩
  · rw [he, Grammar.mem_rules.mp hr, Option.bind_some, hright]
  · rw [he, hprod', Option.bind_some, hnames.productionNames? hright]

theorem symbolsMatch (hρ : ρ.KeepsNames g h) (hσ : σ.KeepsNames h g) (hg : g.NamesDistinct) (hh : h.NamesDistinct) :
    g.SymbolsMatch h where
  forth s hs := ⟨ρ.symbol s, hρ.sameName hs⟩
  back s' hs' := ⟨σ.symbol s', (hσ.sameName hs').symm⟩
  one_to_one r r' s s' hr hs := by
    constructor
    · rintro rfl
      rw [← hρ.respects hh r r' hr, hρ.respects hh r s' hs]
    · rintro rfl
      rw [← hσ.respects hg r' r hr.symm, hσ.respects hg r' s hs.symm]
  kind s s' hs := by
    rw [← hρ.respects hh s s' hs, kind_symbol]

section
variable (hρ : ρ.Respects g h) {i i' : Nat} (hi : g.SameName h (.nonTerminal i) (.nonTerminal i'))
include hρ hi

theorem Respects.nonTerminal_eq : ρ.nonTerminal i = i' := by
  have := hρ _ _ hi
  simpa [symbol] using this

theorem Respects.holds {f f' : SetFamily} (hf : ∀ i a, f.Holds i a → f'.Holds (ρ.nonTerminal i) (ρ.symbol a))
    {s s' : Symbol} (hs : g.SameName h s s') (h : f.Holds i s) : f'.Holds i' s' := by
  rw [← hρ.nonTerminal_eq hi, ← hρ s s' hs]
  exact hf i s h

end

/-! ## Two embeddings that undo each other -/

structure Undoes (σ ρ : Renaming) (g h : Grammar) : Prop where
  forth : ρ.Embeds g h
  forth_respects : ρ.Respects g h
  back : σ.Embeds h g
  back_respects : σ.Respects h g

section
variable (hσρ : σ.Undoes ρ g h) (hg : g.InRange) (hh : h.InRange) {first first' : SetFamily} (hF : g.IsFirst first)
  (hF' : h.IsFirst first')
include hσρ hg hh hF hF'

theorem Undoes.firstMatch : g.SetsMatch h first first' where
  size_left := hF.size
  size_right := hF'.size
  has_left _ _ := hF.has hg.symbols
  has_right _ _ := hF'.has hh.symbols
  holds_iff _ _ _ _ hi hs := by
    constructor
    · exact hσρ.forth_respects.holds hi (fun _ _ => hσρ.forth.holds_first hF hF') hs
    · exact hσρ.back_respects.holds hi.symm (fun _ _ => hσρ.back.holds_first hF' hF) hs.symm

theorem Undoes.flag_eq {known known' : List Bool} (hsize : known.length = g.size) (hsize' : known'.length = h.size)
    (hknown : ∀ i, known[i]? = some true ↔ first.Holds i .epsilon)
    (hknown' : ∀ i, known'[i]? = some true ↔ first'.Holds i .epsilon) {i i' : Nat}
    (hi : g.SameName h (.nonTerminal i) (.nonTerminal i')) : known[i]? = known'[i']? := by
  have hε : g.SameName h .epsilon .epsilon := ⟨epsilonName, rfl, rfl⟩
  have hflag : known[i]? = some true ↔ known'[i']? = some true := by
    rw [hknown, hknown']
    exact (hσρ.firstMatch hg hh hF hF').holds_iff i i' _ _ hi hε
  have hlt : i < known.length := hsize ▸ hi.has
  have hlt' : i' < known'.length := hsize' ▸ hi.symm.has
  rw [List.getElem?_eq_getElem hlt, List.getElem?_eq_getElem hlt', Option.some.injEq] at hflag ⊢
  rwa [Option.some.injEq, ← Bool.eq_iff_iff] at hflag

variable {follow follow' : SetFamily} (hP : g.IsFollow first follow) (hP' : h.IsFollow first' follow')
include hP hP'

theorem Undoes.followMatch : g.SetsMatch h follow follow' where
  size_left := hP.size
  size_right := hP'.size
  has_left _ _ := hP.has hg.symbols fun _ _ => hF.has hg.symbols
  has_right _ _ := hP'.has hh.symbols fun _ _ => hF'.has hh.symbols
  holds_iff _ _ _ _ hi hs := by
    constructor
    · exact hσρ.forth_respects.holds hi (fun _ _ => hσρ.forth.holds_follow hF hF' hP hP') hs
    · exact hσρ.back_respects.holds hi.symm (fun _ _ => hσρ.back.holds_follow hF' hF hP' hP) hs.symm

section
variable {claims claims' : List Cell} (hmem : ∀ c, c ∈ claims ↔ ∃ r ∈ g.rules, r.Claims first.Holds follow.Holds c)
  (hmem' : ∀ c, c ∈ claims' ↔ ∃ r ∈ h.rules, r.Claims first'.Holds follow'.Holds c)
include hmem hmem'

omit hg hh in
theorem Undoes.exists_fillStrictly_iff : (∃ u, (∅ : Table).fillStrictly claims = .ok u) ↔
    ∃ u', (∅ : Table).fillStrictly claims' = .ok u' := by
  constructor
  · exact hσρ.back.exists_fillStrictly hF' hF hP' hP hmem' hmem
  · exact hσρ.forth.exists_fillStrictly hF hF' hP hP' hmem hmem'

theorem Undoes.tablesMatch (hnames : ρ.KeepsNames g h) (hpair : claims.Pairwise Cell.Precedes)
    (hpair' : claims'.Pairwise Cell.Precedes) {u u' : Table} (hu : (∅ : Table).fillStrictly claims = .ok u)
    (hu' : (∅ : Table).fillStrictly claims' = .ok u') : g.TablesMatch h u u' where
  has_left _ _ := Grammar.has_of_get? hF hP hmem hu hg
  has_right _ _ := Grammar.has_of_get? hF' hP' hmem' hu' hh
  get? i i' t t' hi ht := by
    have hback := hσρ.back_respects.nonTerminal_eq hi.symm
    have hback' := hσρ.back_respects _ _ ht.symm
    have hforth := hσρ.forth_respects.nonTerminal_eq hi
    have hforth' := hσρ.forth_respects _ _ ht
    subst hforth hforth'
    cases he : u.get? ⟨i, t⟩ with
    | some e =>
      have he' : u'.get? ⟨ρ.nonTerminal i, ρ.symbol t⟩ = some ⟨ρ.production i e.production, e.vanishing⟩ :=
        hσρ.forth.get?_strict hF hF' hP hP' hmem hmem' hpair' hu hu' (c := ⟨⟨i, t⟩, e⟩) he
      obtain ⟨r, hr, hc⟩ := Grammar.exists_rule_of_get? hmem hu he
      have hrow : i = r.left := hc.row
      rw [he', hrow]
      exact .some (hσρ.forth.sameEntry hnames hr (hg.symbols r hr) hc.production)
    | none =>
      cases he' : u'.get? ⟨ρ.nonTerminal i, ρ.symbol t⟩ with
      | none => exact .none
      | some e' =>
        -- the entry would come back by the second embedding
        have hno : u.get? ⟨σ.nonTerminal (ρ.nonTerminal i), σ.symbol (ρ.symbol t)⟩ =
            some ⟨σ.production (ρ.nonTerminal i) e'.production, e'.vanishing⟩ :=
          hσρ.back.get?_strict hF' hF hP' hP hmem' hmem hpair hu' hu (c := ⟨⟨ρ.nonTerminal i, ρ.symbol t⟩, e'⟩) he'
        rw [hback, hback', he] at hno
        cases hno

end

end

end Renaming

end Predictive
