import Predictive.Proofs.TraceGrid
import Predictive.Text.Bytes

/-!
# Summaries of sets in any order

The members of a set are handed over in an order of its own and then sorted by
their names. No two members have one name, so only one order is left: the
terminals by the bytes of their names, then ε, then the end of input. The names
tell which symbols are in the set.
-/

namespace Predictive

open Text KeyOrder

/-! ## Stable sorting -/

section
variable {α κ : Type} [KeyOrder κ] {key : α → κ}

theorem not_before_trans {a b c : κ} (hab : ¬ before b a) (hbc : ¬ before c b) : ¬ before c a := by
  intro hca
  by_cases hcb : before b c
  · exact hab (before_trans hcb hca)
  · exact hab (before_connected hbc hcb ▸ hca)

/-- A stable sort. -/
def sortByKey (key : α → κ) (l : List α) : List α := l.mergeSort fun a b => !decide (before (key b) (key a))

theorem sortByKey_perm (l : List α) : (sortByKey key l).Perm l := List.mergeSort_perm l _

theorem ascending_sortByKey {l : List α} (h : (l.map key).Nodup) : Ascending key (sortByKey key l) := by
  have hsorted : (sortByKey key l).Pairwise fun a b => (!decide (before (key b) (key a))) = true := by
    apply List.pairwise_mergeSort
    · simpa using fun a b c => not_before_trans
    · intro a b
      by_cases hba : before (key b) (key a)
      · simpa [hba] using fun hab => before_irrefl _ (before_trans hba hab)
      · simp [hba]
  have hne : (sortByKey key l).Pairwise fun a b => key a ≠ key b :=
    List.pairwise_map.mp (((sortByKey_perm l).map key).nodup_iff.mpr h)
  refine (hsorted.and hne).imp fun {a b} hab => ?_
  by_cases hlt : before (key a) (key b)
  · exact hlt
  · exact absurd (before_connected hlt (by simpa using hab.1)) hab.2

end

/-- What names are sorted by: ε comes after the terminals, the end of input last. -/
structure Place where
  rank : Nat
  name : String

namespace Place

def Before (a b : Place) : Prop := a.rank < b.rank ∨ a.rank = b.rank ∧ utf8Bytes a.name < utf8Bytes b.name

instance : DecidableRel Before := fun a b => inferInstanceAs (Decidable (a.rank < b.rank ∨ _))

instance : KeyOrder Place where
  before := Before
  decBefore := inferInstance
  before_irrefl a h := by
    rcases h with h | h
    · exact Nat.lt_irrefl _ h
    · exact List.lt_irrefl _ h.2
  before_trans := by
    intro a b c hab hbc
    rcases hab with hab | ⟨hab, hab'⟩
    · rcases hbc with hbc | ⟨hbc, _⟩
      · exact Or.inl (Nat.lt_trans hab hbc)
      · exact Or.inl (hbc ▸ hab)
    · rcases hbc with hbc | ⟨hbc, hbc'⟩
      · exact Or.inl (hab ▸ hbc)
      · exact Or.inr ⟨hab.trans hbc, List.lt_trans hab' hbc'⟩
  before_connected := by
    intro a b hab hba
    obtain ⟨i, s⟩ := a
    obtain ⟨j, t⟩ := b
    unfold Before at hab hba
    have hrank : i = j := by simp only [not_or] at hab hba; omega
    subst hrank
    have hname : s = t := by
      apply before_connected
      · intro h
        exact hab (Or.inr ⟨rfl, before_iff_bytes.mp h⟩)
      · intro h
        exact hba (Or.inr ⟨rfl, before_iff_bytes.mp h⟩)
    rw [hname]

/-- The place of a name, where no symbol but the two marks has the name of a mark. -/
def ofName (name : String) : Place :=
  if name = epsilonName then ⟨1, ""⟩ else if name = endName then ⟨2, ""⟩ else ⟨0, name⟩

def shown (p : Place) : String := if p.rank = 0 then p.name else if p.rank = 1 then epsilonName else endName

theorem shown_ofName (name : String) : (ofName name).shown = name := by
  unfold ofName
  by_cases hε : name = epsilonName
  · rw [if_pos hε, hε]
    rfl
  by_cases hend : name = endName
  · rw [if_neg hε, if_pos hend, hend]
    rfl
  · rw [if_neg hε, if_neg hend]
    rfl

theorem ofName_injective : Function.Injective ofName := Function.LeftInverse.injective shown_ofName

end Place

/-! ## Sets in any order -/

structure NamedSymbol where
  symbol : Symbol
  name : String

def NamedSymbol.place (a : NamedSymbol) : Place :=
  match a.symbol with
  | .terminal _ | .nonTerminal _ => ⟨0, a.name⟩
  | .epsilon => ⟨1, ""⟩
  | .endOfInput => ⟨2, ""⟩

/-- The orders in which the members of the sets are handed over. -/
structure Orders where
  first : Nat → SymbolSet → List Symbol
  follow : Nat → SymbolSet → List Symbol
  first_perm : ∀ i s, (first i s).Perm s.toList
  follow_perm : ∀ i s, (follow i s).Perm s.toList

namespace Grammar

/-- The names of the symbols after a stable sort. -/
def sortedNames? (g : Grammar) (symbols : List Symbol) : Option (List String) :=
  (symbols.mapM fun a => (g.nameOf? a).map (NamedSymbol.mk a)).map fun named =>
    (sortByKey NamedSymbol.place named).map NamedSymbol.name

def summaryRowIn? (g : Grammar) (o : Orders) (a : Analysis) (n : NonTerminal) : Option SummaryRow :=
  (a.first.get? n.index).bind fun first =>
    (a.follow.get? n.index).bind fun follow =>
      (g.sortedNames? (o.first n.index first)).bind fun firstNames =>
        (g.sortedNames? (o.follow n.index follow)).map fun followNames =>
          ⟨n.name, decide (Symbol.epsilon ∈ first), firstNames, followNames⟩

/-- The summary of sets whose members come in these orders. -/
def summaryIn? (g : Grammar) (o : Orders) (a : Analysis) : Option Summary :=
  (g.nonTerminals.mapM (g.summaryRowIn? o a)).map Summary.mk

def named (g : Grammar) (a : Symbol) : NamedSymbol := ⟨a, g.nameOf a⟩

/-- The names of the members other than the marks. -/
def ownNames (g : Grammar) (s : SymbolSet) : List String :=
  sortNames ((s.toList.filter fun a => a != .epsilon && a != .endOfInput).map g.nameOf)

def namesOf (g : Grammar) (s : SymbolSet) : List String :=
  g.ownNames s ++ (if Symbol.epsilon ∈ s then [epsilonName] else []) ++
    (if Symbol.endOfInput ∈ s then [endName] else [])

variable {g : Grammar} {s : SymbolSet}

theorem setNames?_eq (hs : ∀ a ∈ s, g.Has a) : g.setNames? s = some (g.namesOf s) := by
  have hnamed : ∀ a ∈ s.toList.filter (fun a => a != .epsilon && a != .endOfInput), g.nameOf? a = some (g.nameOf a) :=
    fun a ha => nameOf?_eq (hs a (List.mem_filter.mp ha).1)
  unfold setNames?
  dsimp only
  rw [mapM_eq_some_map hnamed]
  rfl

theorem sortedNames?_eq_sort {symbols : List Symbol} (h : ∀ a ∈ symbols, g.Has a) : g.sortedNames? symbols =
    some ((sortByKey NamedSymbol.place (symbols.map g.named)).map NamedSymbol.name) := by
  have hnamed : ∀ a ∈ symbols, (g.nameOf? a).map (NamedSymbol.mk a) = some (g.named a) := by
    intro a ha
    rw [nameOf?_eq (h a ha)]
    rfl
  unfold sortedNames?
  rw [mapM_eq_some_map hnamed, Option.map_some]

theorem mem_ownNames {name : String} :
    name ∈ g.ownNames s ↔ ∃ a ∈ s, (a ≠ .epsilon ∧ a ≠ .endOfInput) ∧ g.nameOf a = name := by
  unfold ownNames sortNames
  apply Iff.trans (mem_foldr_insertByKey fun _ _ _ _ e => e)
  simp [and_assoc, SymbolSet.mem_toList]

theorem pairwise_ownNames (g : Grammar) (s : SymbolSet) :
    (g.ownNames s).Pairwise fun x y => utf8Bytes x < utf8Bytes y := by
  have hsorted : Ascending id (g.ownNames s) := ascending_foldr_insertByKey _
  exact hsorted.imp fun h => before_iff_bytes.mp h

theorem mem_namesOf {name : String} : name ∈ g.namesOf s ↔ ∃ a ∈ s, g.nameOf a = name := by
  unfold namesOf
  rw [List.mem_append, List.mem_append, mem_ownNames]
  constructor
  · rintro ((⟨a, ha, _, hname⟩ | hε) | hend)
    · exact ⟨a, ha, hname⟩
    · obtain ⟨hmem, hε⟩ : Symbol.epsilon ∈ s ∧ name = epsilonName := by simpa using hε
      exact ⟨_, hmem, hε.symm⟩
    · obtain ⟨hmem, hend⟩ : Symbol.endOfInput ∈ s ∧ name = endName := by simpa using hend
      exact ⟨_, hmem, hend.symm⟩
  · rintro ⟨a, ha, rfl⟩
    by_cases hε : a = .epsilon
    · subst hε
      exact Or.inl (Or.inr (by simp [ha, nameOf, nameOf?, Alphabet.nameOf?]))
    by_cases hend : a = .endOfInput
    · subst hend
      exact Or.inr (by simp [ha, nameOf, nameOf?, Alphabet.nameOf?])
    · exact Or.inl (Or.inl ⟨a, ha, ⟨hε, hend⟩, rfl⟩)

namespace Consistent
variable (hg : g.Consistent)
include hg

theorem ne_marks {a : Symbol} (ha : g.Has a) (hmark : a ≠ .epsilon ∧ a ≠ .endOfInput) :
    g.nameOf a ≠ epsilonName ∧ g.nameOf a ≠ endName :=
  hg.unreserved _ (mem_names_of_nameOf? hmark (nameOf?_eq ha))

theorem place_named {a : Symbol} (ha : g.Has a) : (g.named a).place = Place.ofName (g.nameOf a) := by
  have hne := hg.ne_marks ha
  cases a with
  | terminal i => simp [NamedSymbol.place, named, Place.ofName, hne]
  | nonTerminal i => simp [NamedSymbol.place, named, Place.ofName, hne]
  | epsilon => rfl
  | endOfInput => rfl

theorem symbolOf?_nameOf {a : Symbol} (ha : g.Has a) : g.symbolOf? (g.nameOf a) = some a :=
  (hg.symbolOf?_iff _ _).mpr (nameOf?_eq ha)

theorem nameOf_inj {a b : Symbol} (ha : g.Has a) (hb : g.Has b) (h : g.nameOf a = g.nameOf b) : a = b := by
  have hsymbol := hg.symbolOf?_nameOf ha
  rw [h, hg.symbolOf?_nameOf hb, Option.some.injEq] at hsymbol
  exact hsymbol.symm

theorem ascending_sorted {symbols : List Symbol} (hnodup : symbols.Nodup) (h : ∀ a ∈ symbols, g.Has a) :
    Ascending Place.ofName ((sortByKey NamedSymbol.place (symbols.map g.named)).map NamedSymbol.name) := by
  have hplaces : ((symbols.map g.named).map NamedSymbol.place).Nodup := by
    rw [List.map_map]
    refine hnodup.map_on fun a ha b hb e => ?_
    rw [Function.comp_apply, Function.comp_apply, hg.place_named (h a ha), hg.place_named (h b hb)] at e
    exact hg.nameOf_inj (h a ha) (h b hb) (Place.ofName_injective e)
  have hname : ∀ x ∈ sortByKey NamedSymbol.place (symbols.map g.named), x.place = Place.ofName x.name := by
    intro x hx
    obtain ⟨a, ha, rfl⟩ := List.mem_map.mp ((sortByKey_perm _).mem_iff.mp hx)
    exact hg.place_named (h a ha)
  refine List.pairwise_map.mpr ((ascending_sortByKey hplaces).imp_of_mem fun {x y} hx hy hxy => ?_)
  rwa [hname x hx, hname y hy] at hxy

theorem place_ownName (hs : ∀ a ∈ s, g.Has a) {name : String} (h : name ∈ g.ownNames s) :
    Place.ofName name = ⟨0, name⟩ := by
  obtain ⟨a, ha, hmark, rfl⟩ := mem_ownNames.mp h
  have hne := hg.ne_marks (hs a ha) hmark
  rw [Place.ofName, if_neg hne.1, if_neg hne.2]

theorem ascending_ownNames (hs : ∀ a ∈ s, g.Has a) : Ascending Place.ofName (g.ownNames s) := by
  refine (pairwise_ownNames g s).imp_of_mem fun {x y} hx hy hxy => ?_
  rw [hg.place_ownName hs hx, hg.place_ownName hs hy]
  exact Or.inr ⟨rfl, hxy⟩

theorem ascending_namesOf (hs : ∀ a ∈ s, g.Has a) : Ascending Place.ofName (g.namesOf s) := by
  have hown : ∀ name ∈ g.ownNames s, (Place.ofName name).rank = 0 :=
    fun name hname => congrArg Place.rank (hg.place_ownName hs hname)
  have hε : ∀ name ∈ g.ownNames s ++ (if Symbol.epsilon ∈ s then [epsilonName] else []),
      (Place.ofName name).rank < 2 := by
    intro name hname
    rcases List.mem_append.mp hname with hname | hname
    · rw [hown name hname]
      decide
    · obtain ⟨_, rfl⟩ : Symbol.epsilon ∈ s ∧ name = epsilonName := by simpa using hname
      decide
  unfold Ascending namesOf
  rw [List.pairwise_append, List.pairwise_append]
  refine ⟨⟨hg.ascending_ownNames hs, ?_, ?_⟩, ?_, ?_⟩
  · split <;> simp
  · intro x hx y hy
    obtain ⟨_, rfl⟩ : Symbol.epsilon ∈ s ∧ y = epsilonName := by simpa using hy
    exact Or.inl (by rw [hown x hx]; decide)
  · split <;> simp
  · intro x hx y hy
    obtain ⟨_, rfl⟩ : Symbol.endOfInput ∈ s ∧ y = endName := by simpa using hy
    exact Or.inl (hε x hx)

theorem nodup_namesOf (hs : ∀ a ∈ s, g.Has a) : (g.namesOf s).Nodup :=
  (hg.ascending_namesOf hs).nodup_map.of_map

/-- Whatever order the members are handed over in, they are listed in the same one. -/
theorem sortedNames?_eq (hs : ∀ a ∈ s, g.Has a) {symbols : List Symbol} (h : symbols.Perm s.toList) :
    g.sortedNames? symbols = some (g.namesOf s) := by
  have hhas : ∀ a ∈ symbols, g.Has a := fun a ha => hs a (h.mem_iff.mp ha)
  rw [sortedNames?_eq_sort hhas, Option.some.injEq]
  apply (hg.ascending_sorted (h.nodup_iff.mpr s.nodup) hhas).ext (hg.ascending_namesOf hs)
  intro name
  rw [mem_namesOf]
  simp [(sortByKey_perm _).mem_iff, named, h.mem_iff, SymbolSet.mem_toList]

end Consistent

end Grammar

/-! ## The lists of a summary -/

/-- Every member is listed once, by its name: terminals by the bytes of their
names, then ε, then the end of input. -/
structure Grammar.Lists (g : Grammar) (s : SymbolSet) (names : List String) : Prop where
  once : names.Nodup
  members : ∀ name, name ∈ names ↔ ∃ a ∈ s, g.nameOf? a = some name
  order : ∃ terminals, (∀ name ∈ terminals, name ∈ g.terminals) ∧
    terminals.Pairwise (fun x y => utf8Bytes x < utf8Bytes y) ∧
    names = terminals ++ (if Symbol.epsilon ∈ s then [epsilonName] else []) ++
      (if Symbol.endOfInput ∈ s then [endName] else [])
  symbols : ∃ symbols, names.mapM g.symbolOf? = some symbols ∧ symbols.Perm s.toList

structure SummaryRow.Shows (g : Grammar) (first follow : SymbolSet) (r : SummaryRow) : Prop where
  first : g.Lists first r.first
  follow : g.Lists follow r.follow
  end_not_first : endName ∉ r.first
  epsilon_not_follow : epsilonName ∉ r.follow
  nullable : r.nullable = true ↔ r.first.getLast? = some epsilonName

namespace Grammar
variable {g : Grammar} {s : SymbolSet}

theorem lists_namesOf (hg : g.Consistent) (hs : ∀ a ∈ s, g.Has a) (hkind : ∀ a ∈ s, a.kind ≠ .nonTerminal) :
    g.Lists s (g.namesOf s) where
  once := hg.nodup_namesOf hs
  members name := by
    rw [mem_namesOf]
    refine exists_congr fun a => and_congr_right fun ha => ?_
    rw [nameOf?_eq (hs a ha), Option.some.injEq]
  order := by
    refine ⟨g.ownNames s, fun name hname => ?_, pairwise_ownNames g s, rfl⟩
    obtain ⟨a, ha, hmark, rfl⟩ := mem_ownNames.mp hname
    have hname := nameOf?_eq (hs a ha)
    cases a with
    | terminal i => exact List.mem_of_getElem? hname
    | nonTerminal i => exact absurd rfl (hkind _ ha)
    | epsilon => exact absurd rfl hmark.1
    | endOfInput => exact absurd rfl hmark.2
  symbols := by
    have hback : ∀ a ∈ s, g.symbolOf? (g.nameOf a) = some a := fun a ha => hg.symbolOf?_nameOf (hs a ha)
    have hsymbol : ∀ name ∈ g.namesOf s, g.symbolOf? name = some ((g.symbolOf? name).getD .epsilon) := by
      intro name hname
      obtain ⟨a, ha, rfl⟩ := mem_namesOf.mp hname
      rw [hback a ha, Option.getD_some]
    refine ⟨_, mapM_eq_some_map hsymbol, (List.perm_ext_iff_of_nodup ?_ s.nodup).mpr fun b => ?_⟩
    · refine (hg.nodup_namesOf hs).map_on fun x hx y hy e => ?_
      obtain ⟨a, ha, rfl⟩ := mem_namesOf.mp hx
      obtain ⟨b, hb, rfl⟩ := mem_namesOf.mp hy
      rw [hback a ha, hback b hb] at e
      exact congrArg g.nameOf e
    · rw [List.mem_map]
      constructor
      · rintro ⟨name, hname, rfl⟩
        obtain ⟨a, ha, rfl⟩ := mem_namesOf.mp hname
        rwa [hback a ha]
      · intro hb
        exact ⟨g.nameOf b, mem_namesOf.mpr ⟨b, hb, rfl⟩, by rw [hback b hb]; rfl⟩

theorem Lists.getLast?_eq_epsilon_iff (hg : g.Consistent) {names : List String} (h : g.Lists s names)
    (hend : .endOfInput ∉ s) : names.getLast? = some epsilonName ↔ .epsilon ∈ s := by
  obtain ⟨terminals, hterminals, _, rfl⟩ := h.order
  rw [if_neg hend, List.append_nil]
  by_cases hε : Symbol.epsilon ∈ s
  · simp [hε]
  · simp only [hε, if_false, List.append_nil, iff_false]
    intro hlast
    have hname := hterminals _ (List.mem_of_getLast? hlast)
    exact (hg.unreserved _ (Alphabet.mem_names.mpr (Or.inr hname))).1 rfl

theorem Lists.not_mem_of_not_mem (hg : g.Consistent) {names : List String} (h : g.Lists s names) {a : Symbol}
    {name : String} (hname : g.nameOf? a = some name) (ha : a ∉ s) : name ∉ names := by
  intro hmem
  obtain ⟨b, hb, hname'⟩ := (h.members name).mp hmem
  have hsame : some a = some b := by
    rw [← (hg.symbolOf?_iff name a).mpr hname, (hg.symbolOf?_iff name b).mpr hname']
  cases hsame
  exact ha hb

/-! ## Summaries of built sets -/

theorem firstClosed_ne_endOfInput (hplain : ∀ r ∈ g.rules, Production.Plain r.right) :
    g.FirstClosed fun _ a => a ≠ .endOfInput := by
  intro r hr a hopens
  rcases hopens.mem_or with rfl | ha | ⟨_, ha⟩
  · exact fun e => by cases e
  · exact (hplain r hr a ha).2
  · exact ha

/-- What is in the sets of one nonterminal. -/
structure SetsFit (g : Grammar) (first follow : SymbolSet) : Prop where
  first : ∀ b ∈ first, g.Has b ∧ b.kind ≠ .nonTerminal ∧ b ≠ .endOfInput
  follow : ∀ b ∈ follow, g.Has b ∧ b.isLookahead = true

namespace SetsFit
variable {first follow : SymbolSet} (h : g.SetsFit first follow)
include h

theorem first_has : ∀ b ∈ first, g.Has b := fun b hb => (h.first b hb).1

theorem follow_has : ∀ b ∈ follow, g.Has b := fun b hb => (h.follow b hb).1

theorem follow_kind : ∀ b ∈ follow, b.kind ≠ .nonTerminal := by
  intro b hb e
  cases b with
  | nonTerminal i => cases (h.follow _ hb).2
  | _ => cases e

end SetsFit

def firstAt (a : Analysis) (i : Nat) : SymbolSet := (a.first.get? i).getD ∅

def followAt (a : Analysis) (i : Nat) : SymbolSet := (a.follow.get? i).getD ∅

theorem Snapshot.sets (hg : g.WellFormed) {a : Analysis} (ha : g.Snapshot a) {i : Nat} (hi : i < g.size) :
    a.first.get? i = some (firstAt a i) ∧ a.follow.get? i = some (followAt a i) ∧
      g.SetsFit (firstAt a i) (followAt a i) := by
  have hrange := ha.inRange hg.toInRange
  obtain ⟨first, hfirst⟩ := SetFamily.exists_get? (hrange.first_size ▸ hi)
  obtain ⟨follow, hfollow⟩ := SetFamily.exists_get? (hrange.follow_size ▸ hi)
  have hend := (ha.first.below hg.toInRange.bodies).2 _ (firstClosed_ne_endOfInput hg.plain)
  rw [firstAt, followAt, hfirst, hfollow]
  refine ⟨rfl, rfl, fun b hb => ?_, fun b hb => ?_⟩
  · have hholds := (SetFamily.holds_iff hfirst).mpr hb
    exact ⟨hrange.first_has i b hholds, ha.first.only.get? hfirst b hb, hend i b hholds⟩
  · have hholds := (SetFamily.holds_iff hfollow).mpr hb
    exact ⟨hrange.follow_has i b hholds, ha.follow.only.get? hfollow b hb⟩

def rowOf (g : Grammar) (name : String) (first follow : SymbolSet) : SummaryRow :=
  ⟨name, decide (.epsilon ∈ first), g.namesOf first, g.namesOf follow⟩

theorem SetsFit.shows_rowOf {first follow : SymbolSet} (h : g.SetsFit first follow) (hg : g.Consistent)
    (name : String) : (g.rowOf name first follow).Shows g first follow := by
  have hend : .endOfInput ∉ first := fun hmem => (h.first _ hmem).2.2 rfl
  have hε : .epsilon ∉ follow := fun hmem => by cases (h.follow _ hmem).2
  have hfirst := lists_namesOf hg h.first_has fun b hb => (h.first b hb).2.1
  have hfollow := lists_namesOf hg h.follow_has h.follow_kind
  refine ⟨hfirst, hfollow, ?_, ?_, ?_⟩
  · exact hfirst.not_mem_of_not_mem hg (a := .endOfInput) rfl hend
  · exact hfollow.not_mem_of_not_mem hg (a := .epsilon) rfl hε
  · rw [rowOf, hfirst.getLast?_eq_epsilon_iff hg hend]
    exact decide_eq_true_iff

def summaryOf (g : Grammar) (a : Analysis) : Summary :=
  ⟨g.nonTerminals.map fun n => g.rowOf n.name (firstAt a n.index) (followAt a n.index)⟩

theorem names_summaryOf (g : Grammar) (a : Analysis) :
    (g.summaryOf a).rows.map SummaryRow.name = g.nonTerminals.map NonTerminal.name :=
  List.map_map

theorem length_summaryOf (g : Grammar) (a : Analysis) : (g.summaryOf a).rows.length = g.size := by
  rw [summaryOf, List.length_map, size]

section
variable {a : Analysis} (hg : g.WellFormed) (ha : g.Snapshot a)
include hg ha

theorem Snapshot.sets_of_mem {n : NonTerminal} (hn : n ∈ g.nonTerminals) :
    a.first.get? n.index = some (firstAt a n.index) ∧ a.follow.get? n.index = some (followAt a n.index) ∧
      g.SetsFit (firstAt a n.index) (followAt a n.index) :=
  ha.sets hg (index_lt_size hn)

theorem Snapshot.summary?_eq : g.summary? a = some (g.summaryOf a) := by
  have hrow : ∀ n ∈ g.nonTerminals, g.summaryRow? a n =
      some (g.rowOf n.name (firstAt a n.index) (followAt a n.index)) := by
    intro n hn
    obtain ⟨hfirst, hfollow, hfit⟩ := ha.sets_of_mem hg hn
    simp [rowOf, summaryRow?, hfirst, hfollow, setNames?_eq hfit.first_has, setNames?_eq hfit.follow_has]
  unfold summary? summaryOf
  rw [mapM_eq_some_map hrow]
  rfl

/-- The orders do not show in the summary. -/
theorem Snapshot.summaryIn?_eq (hnames : g.Consistent) (o : Orders) : g.summaryIn? o a = some (g.summaryOf a) := by
  have hrow : ∀ n ∈ g.nonTerminals, g.summaryRowIn? o a n =
      some (g.rowOf n.name (firstAt a n.index) (followAt a n.index)) := by
    intro n hn
    obtain ⟨hfirst, hfollow, hfit⟩ := ha.sets_of_mem hg hn
    have hsorted := hnames.sortedNames?_eq hfit.first_has (o.first_perm n.index (firstAt a n.index))
    have hsorted' := hnames.sortedNames?_eq hfit.follow_has (o.follow_perm n.index (followAt a n.index))
    simp [rowOf, summaryRowIn?, hfirst, hfollow, hsorted, hsorted']
  unfold summaryIn? summaryOf
  rw [mapM_eq_some_map hrow]
  rfl

end

/-- Sets before or after any pass have one summary, in whatever orders their
members are handed over. It has a row for each nonterminal, and a row tells which
symbols are in the sets. -/
theorem summary_of_orders {t : GrammarText} (h : t.read = .ok g) {a : Analysis} (ha : g.Snapshot a) :
    ∃ s, g.summary? a = some s ∧ (∀ o : Orders, g.summaryIn? o a = some s) ∧ s.rows.length = g.size ∧
      ∀ i n, g.nonTerminal? i = some n → ∃ r first follow, s.rows[i]? = some r ∧ r.name = n.name ∧
        a.first.get? i = some first ∧ a.follow.get? i = some follow ∧ r.Shows g first follow := by
  have hg := GrammarText.wellFormed_of_read h
  obtain ⟨_, hnames⟩ := GrammarText.inRange_consistent_of_read h
  refine ⟨g.summaryOf a, ha.summary?_eq hg, ha.summaryIn?_eq hg hnames, length_summaryOf g a, fun i n hn => ?_⟩
  obtain ⟨hfirst, hfollow, hfit⟩ := ha.sets hg (List.getElem?_eq_some_iff.mp hn).1
  refine ⟨_, _, _, ?_, rfl, hfirst, hfollow, hfit.shows_rowOf hnames n.name⟩
  have hn' : g.nonTerminals[i]? = some n := hn
  simp [summaryOf, hn', index_of_nonTerminal? hn]

/-- Names in an order of their own, and sets with both marks. -/
def mixedText : GrammarText where
  rules := [⟨"S", ["T 日", "é S"]⟩, ⟨"T", ["z", "é T", ""]⟩]
  start := "S"
  terminals := none

def mixedSummary : Summary :=
  ⟨[⟨"S", false, ["z", "é", "日"], ["$"]⟩, ⟨"T", true, ["z", "é", "ε"], ["日"]⟩]⟩

def reversedOrders : Orders where
  first _ s := s.toList.reverse
  follow _ s := s.toList.reverse
  first_perm _ _ := List.reverse_perm _
  follow_perm _ _ := List.reverse_perm _

theorem summary_of_orders_mixed : ∃ g a, mixedText.read = .ok g ∧ g.Snapshot a ∧ g.summary? a = some mixedSummary ∧
    g.summaryIn? reversedOrders a = some mixedSummary := by
  have hread : mixedText.read = .ok mixedText.grammar :=
    GrammarText.read_eq_ok_iff.mpr ⟨by decide +kernel, rfl⟩
  have hsummary : mixedText.grammar.analysis?.map (fun a => mixedText.grammar.summary? a) =
      some (some mixedSummary) := by decide +kernel
  obtain ⟨a, ha, hsummary⟩ := Option.map_eq_some_iff.mp hsummary
  obtain ⟨s, hs, horders, _⟩ := summary_of_orders hread (snapshot_of_analysis? ha)
  rw [hsummary, Option.some.injEq] at hs
  subst hs
  exact ⟨_, a, hread, snapshot_of_analysis? ha, hsummary, horders reversedOrders⟩

end Grammar

end Predictive
