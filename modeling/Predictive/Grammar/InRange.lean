import Predictive.Grammar.Basic

/-!
# Numbers in range

An edited grammar may speak of numbers that it does not have. The analysis
looks up nonterminals only, so terminals are in a condition of their own.
-/

namespace Predictive

theorem exists_mapM {α β : Type} {f : α → Option β} {l : List α} (h : ∀ x ∈ l, (f x).isSome = true) :
    ∃ ys, l.mapM f = some ys := by
  induction l with
  | nil => exact ⟨[], rfl⟩
  | cons x l ih =>
    obtain ⟨y, hy⟩ := Option.isSome_iff_exists.mp (h x List.mem_cons_self)
    obtain ⟨ys, hys⟩ := ih fun z hz => h z (List.mem_cons_of_mem x hz)
    exact ⟨y :: ys, by simp [List.mapM_cons, hy, hys]⟩

theorem mapM_eq_some_map {α β : Type} {f : α → Option β} {g : α → β} :
    ∀ {l : List α}, (∀ x ∈ l, f x = some (g x)) → l.mapM f = some (l.map g)
  | [], _ => rfl
  | x :: l, h => by
    rw [List.mapM_cons, h x List.mem_cons_self,
      mapM_eq_some_map fun y hy => h y (List.mem_cons_of_mem x hy)]
    rfl

section
variable {α β : Type} {f : α → Option β}

theorem length_of_mapM : ∀ {l : List α} {ys : List β}, l.mapM f = some ys → ys.length = l.length
  | [], ys, h => by
    cases h
    rfl
  | x :: l, ys, h => by
    rw [List.mapM_cons] at h
    obtain ⟨_, _, h⟩ := Option.bind_eq_some_iff.mp h
    obtain ⟨zs, hzs, h⟩ := Option.bind_eq_some_iff.mp h
    cases h
    exact congrArg (· + 1) (length_of_mapM hzs)

theorem exists_of_mem_mapM {y : β} : ∀ {l : List α} {ys : List β},
    l.mapM f = some ys → y ∈ ys → ∃ x ∈ l, f x = some y
  | [], ys, h, hy => by
    cases h
    exact absurd hy List.not_mem_nil
  | x :: l, ys, h, hy => by
    rw [List.mapM_cons] at h
    obtain ⟨z, hz, h⟩ := Option.bind_eq_some_iff.mp h
    obtain ⟨zs, hzs, h⟩ := Option.bind_eq_some_iff.mp h
    cases h
    rcases List.mem_cons.mp hy with rfl | hy
    · exact ⟨x, List.mem_cons_self, hz⟩
    · obtain ⟨x', hx', hy⟩ := exists_of_mem_mapM hzs hy
      exact ⟨x', List.mem_cons_of_mem x hx', hy⟩

theorem exists_of_mapM {x : α} {l : List α} {ys : List β} (h : l.mapM f = some ys) (hx : x ∈ l) :
    ∃ y, f x = some y := by
  induction l generalizing ys with
  | nil => exact absurd hx List.not_mem_nil
  | cons z l ih =>
    rw [List.mapM_cons] at h
    obtain ⟨y, hy, h⟩ := Option.bind_eq_some_iff.mp h
    obtain ⟨zs, hzs, _⟩ := Option.bind_eq_some_iff.mp h
    rcases List.mem_cons.mp hx with rfl | hx
    · exact ⟨y, hy⟩
    · exact ih hzs hx

theorem map_of_mapM {γ : Type} {h : β → γ} : ∀ {l : List α} {ys : List β},
    l.mapM f = some ys → (l.mapM fun x => (f x).map h) = some (ys.map h)
  | [], ys, hl => by
    cases hl
    rfl
  | x :: l, ys, hl => by
    rw [List.mapM_cons] at hl
    obtain ⟨y, hy, hl⟩ := Option.bind_eq_some_iff.mp hl
    obtain ⟨zs, hzs, hl⟩ := Option.bind_eq_some_iff.mp hl
    cases hl
    rw [List.mapM_cons, hy, map_of_mapM hzs]
    rfl

end

namespace Grammar

/-- Whether the grammar has a symbol of this kind and number. -/
def Has (g : Grammar) : Symbol → Prop
  | .terminal i => i < g.terminals.length
  | .nonTerminal i => i < g.size
  | .epsilon | .endOfInput => True

instance (g : Grammar) : DecidablePred g.Has := fun s => by
  cases s <;> unfold Has <;> infer_instance

def BodiesInRange (g : Grammar) : Prop :=
  ∀ r ∈ g.rules, ∀ i, Symbol.nonTerminal i ∈ r.right → i < g.size

structure InRange (g : Grammar) : Prop where
  start : g.start < g.size
  symbols : ∀ r ∈ g.rules, ∀ s ∈ r.right, g.Has s

theorem InRange.bodies {g : Grammar} (h : g.InRange) : g.BodiesInRange :=
  fun r hr _ hi => h.symbols r hr _ hi

theorem left_lt_size {g : Grammar} {r : Rule} (h : r ∈ g.rules) : r.left < g.size := by
  obtain ⟨a, ha, _⟩ := Option.bind_eq_some_iff.1 (mem_rules.1 h)
  exact (List.getElem?_eq_some_iff.1 ha).1

theorem nameOf?_isSome {g : Grammar} {s : Symbol} : (g.nameOf? s).isSome = true ↔ g.Has s := by
  cases s <;> simp [nameOf?, Alphabet.nameOf?, alphabet, Has, size]

theorem exists_nameOf? {g : Grammar} {s : Symbol} (h : g.Has s) : ∃ name, g.nameOf? s = some name :=
  Option.isSome_iff_exists.mp (nameOf?_isSome.mpr h)

theorem nameOf?_nonTerminal {g : Grammar} {i : Nat} {a : NonTerminal} (h : g.nonTerminal? i = some a) :
    g.nameOf? (.nonTerminal i) = some a.name := by
  unfold nonTerminal? at h
  simp [nameOf?, Alphabet.nameOf?, alphabet, h]

theorem exists_productionNames? {g : Grammar} {p : Production} (hp : ∀ s ∈ p, g.Has s) :
    ∃ names, g.productionNames? p = some names := by
  unfold productionNames?
  split
  · exact ⟨_, rfl⟩
  · exact exists_mapM fun s hs => nameOf?_isSome.mpr (hp s hs)

end Grammar

end Predictive
