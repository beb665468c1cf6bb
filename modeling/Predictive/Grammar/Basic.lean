import Predictive.Grammar.Alphabet

/-!
# Context-free grammars

Nonterminals and terminals are numbered by their place in the grammar, and
productions speak of them by number. A nonterminal stores its number, and a name
is looked up in the symbol table that the grammar stores. `Grammar.rules` lists
all productions in order, and `Grammar.occurrences` every place where a
nonterminal stands on a right side.
-/

namespace Predictive

abbrev Production := List Symbol

/-! ## Grammars -/

structure NonTerminal where
  index : Nat
  name : String
  productions : List Production
deriving DecidableEq

namespace NonTerminal

def addProduction (a : NonTerminal) (p : Production) : NonTerminal := { a with productions := a.productions ++ [p] }

/-- Every nonterminal stores its place in the list. -/
def Indexed (l : List NonTerminal) : Prop := l.map index = List.range l.length

instance (l : List NonTerminal) : Decidable (Indexed l) := inferInstanceAs (Decidable (_ = _))

theorem Indexed.of_map_eq {l m : List NonTerminal} (hl : Indexed l) (h : m.map index = l.map index) : Indexed m := by
  have hlength : m.length = l.length := by simpa using congrArg List.length h
  unfold Indexed
  rw [h, hlength]
  exact hl

theorem Indexed.concat {l : List NonTerminal} (hl : Indexed l) (name : String) (productions : List Production) :
    Indexed (l ++ [⟨l.length, name, productions⟩]) := by
  unfold Indexed at *
  rw [List.map_append, hl, List.length_append, List.length_singleton, List.range_succ, List.map_singleton]

theorem Indexed.map {l : List NonTerminal} (hl : Indexed l) {f : NonTerminal → NonTerminal}
    (hf : ∀ a, (f a).index = a.index) : Indexed (l.map f) := by
  refine hl.of_map_eq ?_
  rw [List.map_map]
  exact List.map_congr_left fun a _ => hf a

theorem Indexed.modify {l : List NonTerminal} (hl : Indexed l) (i : Nat) {f : NonTerminal → NonTerminal}
    (hf : ∀ a, (f a).index = a.index) : Indexed (l.modify i f) := by
  refine hl.of_map_eq (List.ext_getElem? fun k => ?_)
  rw [List.getElem?_map, List.getElem?_map, List.getElem?_modify]
  cases l[k]? with
  | none => rfl
  | some a => by_cases h : i = k <;> simp [h, hf]

theorem Indexed.of_mapIdx {α : Type} (name : α → String) (productions : α → List Production) (l : List α) :
    Indexed (l.mapIdx fun i x => ⟨i, name x, productions x⟩) := by
  refine List.ext_getElem (by simp) fun k hk _ => ?_
  simp

theorem Indexed.index_eq {l : List NonTerminal} (hl : Indexed l) {i : Nat} {a : NonTerminal} (h : l[i]? = some a) :
    a.index = i := by
  have hi := congrArg (fun m => m[i]?) hl
  obtain ⟨hlt, _⟩ := List.getElem?_eq_some_iff.mp h
  simp only [List.getElem?_map, h, Option.map_some, List.getElem?_range hlt, Option.some.injEq] at hi
  exact hi

end NonTerminal

/-- Nonterminals are found by the number that they store, which is their place. -/
@[ext]
structure Grammar where
  nonTerminals : List NonTerminal
  terminals : List String
  symbolTable : SymbolTable
  start : Nat
  indexed : NonTerminal.Indexed nonTerminals
deriving DecidableEq

/-- Production number `index` of nonterminal number `left`. -/
structure Rule where
  left : Nat
  index : Nat
  right : Production
deriving DecidableEq

/-- A nonterminal on the right side of a rule of `left`, and what stands after it. -/
structure Occurrence where
  left : Nat
  nonTerminal : Nat
  rest : Production
deriving DecidableEq

namespace Grammar

def alphabet (g : Grammar) : Alphabet := ⟨g.nonTerminals.map NonTerminal.name, g.terminals⟩

def symbolOf? (g : Grammar) (name : String) : Option Symbol := g.symbolTable.get? name

/-- An unknown name is taken for a terminal. -/
def classify (g : Grammar) (name : String) : Symbol.Kind :=
  match g.symbolOf? name with
  | some s => s.kind
  | none => .terminal

def nameOf? (g : Grammar) (s : Symbol) : Option String := g.alphabet.nameOf? s

/-- The names of a production's symbols; the empty production is shown as ε. -/
def productionNames? (g : Grammar) (p : Production) : Option (List String) :=
  if p.isEmpty then some [epsilonName] else p.mapM g.nameOf?

def size (g : Grammar) : Nat := g.nonTerminals.length

def nonTerminal? (g : Grammar) (i : Nat) : Option NonTerminal := g.nonTerminals[i]?

def production? (g : Grammar) (i k : Nat) : Option Production :=
  (g.nonTerminal? i).bind fun a => a.productions[k]?

/-- The columns of a table over the grammar: the terminals, then the end of input. -/
def lookaheads (g : Grammar) : List Symbol :=
  (List.range g.terminals.length).map .terminal ++ [.endOfInput]

theorem index_of_nonTerminal? {g : Grammar} {i : Nat} {a : NonTerminal} (h : g.nonTerminal? i = some a) :
    a.index = i :=
  g.indexed.index_eq h

theorem nonTerminal?_index {g : Grammar} {a : NonTerminal} (h : a ∈ g.nonTerminals) :
    g.nonTerminal? a.index = some a := by
  obtain ⟨i, hi⟩ := List.getElem?_of_mem h
  rw [index_of_nonTerminal? hi]
  exact hi

theorem index_lt_size {g : Grammar} {a : NonTerminal} (h : a ∈ g.nonTerminals) : a.index < g.size :=
  (List.getElem?_eq_some_iff.mp (nonTerminal?_index h)).1

/-! ## Rules and occurrences -/

/-- All productions, nonterminal by nonterminal, each with its numbers. -/
def rules (g : Grammar) : List Rule :=
  g.nonTerminals.flatMap fun a => a.productions.zipIdx.map fun p => ⟨a.index, p.2, p.1⟩

end Grammar

def Production.occurrences (left : Nat) : Production → List Occurrence
  | [] => []
  | .nonTerminal i :: rest => ⟨left, i, rest⟩ :: Production.occurrences left rest
  | _ :: rest => Production.occurrences left rest

namespace Grammar

def occurrences (g : Grammar) : List Occurrence :=
  g.rules.flatMap fun r => r.right.occurrences r.left

theorem mem_rules {g : Grammar} {r : Rule} :
    r ∈ g.rules ↔ g.production? r.left r.index = some r.right := by
  obtain ⟨left, index, right⟩ := r
  simp only [rules, List.mem_flatMap, List.mem_map, production?, nonTerminal?, Option.bind_eq_some_iff]
  constructor
  · rintro ⟨a, ha, ⟨p, k⟩, hp, e⟩
    injection e with h₁ h₂ h₃
    subst h₁ h₂ h₃
    exact ⟨a, nonTerminal?_index ha, List.mk_mem_zipIdx_iff_getElem?.1 hp⟩
  · rintro ⟨a, ha, hp⟩
    exact ⟨a, List.mem_of_getElem? ha, (right, index), List.mk_mem_zipIdx_iff_getElem?.2 hp,
      by rw [index_of_nonTerminal? ha]⟩

/-! ## Edits -/

/-- Adds a production, of any symbols, after the others of nonterminal `i`. -/
def addProduction? (g : Grammar) (i : Nat) (p : Production) : Option Grammar :=
  (g.nonTerminal? i).map fun _ =>
    { g with
      nonTerminals := g.nonTerminals.modify i (·.addProduction p)
      indexed := g.indexed.modify i fun _ => rfl }

theorem nonTerminal?_addProduction? {g h : Grammar} {i : Nat} {p : Production} (hadd : g.addProduction? i p = some h)
    (j : Nat) : h.nonTerminal? j = (g.nonTerminal? j).map fun a => if i = j then a.addProduction p else a := by
  obtain ⟨_, _, rfl⟩ := Option.map_eq_some_iff.mp hadd
  exact List.getElem?_modify ..

/-- Makes `i` the start, whether or not there is such a nonterminal. -/
def withStart (g : Grammar) (i : Nat) : Grammar := { g with start := i }

/-- The grammar of nonterminals with their productions, and of terminals; its symbol table is that of its names. -/
def ofLists (nonTerminals : List (String × List Production)) (terminals : List String) (start : Nat) : Grammar where
  nonTerminals := nonTerminals.mapIdx fun i a => ⟨i, a.1, a.2⟩
  terminals := terminals
  symbolTable := Alphabet.table ⟨nonTerminals.map Prod.fst, terminals⟩
  start := start
  indexed := .of_mapIdx Prod.fst Prod.snd nonTerminals

theorem nonTerminal?_ofLists (nonTerminals : List (String × List Production)) (terminals : List String) (start i : Nat) :
    (ofLists nonTerminals terminals start).nonTerminal? i = nonTerminals[i]?.map fun a => ⟨i, a.1, a.2⟩ :=
  List.getElem?_mapIdx

theorem map_nonTerminals_ofLists (nonTerminals : List (String × List Production)) (terminals : List String)
    (start : Nat) : (ofLists nonTerminals terminals start).nonTerminals.map (fun a => (a.name, a.productions)) =
      nonTerminals :=
  List.ext_getElem (by simp [ofLists]) fun k _ _ => by simp [ofLists]

theorem size_ofLists (nonTerminals : List (String × List Production)) (terminals : List String) (start : Nat) :
    (ofLists nonTerminals terminals start).size = nonTerminals.length :=
  List.length_mapIdx

theorem alphabet_ofLists (nonTerminals : List (String × List Production)) (terminals : List String) (start : Nat) :
    (ofLists nonTerminals terminals start).alphabet = ⟨nonTerminals.map Prod.fst, terminals⟩ := by
  have hnames := congrArg (List.map Prod.fst) (map_nonTerminals_ofLists nonTerminals terminals start)
  rw [List.map_map] at hnames
  exact congrArg (Alphabet.mk · terminals) hnames

theorem symbolOf?_ofLists (nonTerminals : List (String × List Production)) (terminals : List String) (start : Nat)
    (name : String) : (ofLists nonTerminals terminals start).symbolOf? name =
      (ofLists nonTerminals terminals start).alphabet.symbolOf? name := by
  rw [alphabet_ofLists]
  exact Alphabet.get?_table _ name

end Grammar

end Predictive
