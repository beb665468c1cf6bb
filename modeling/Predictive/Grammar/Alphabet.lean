import Predictive.Symbol.Basic
import Predictive.Text.Order

/-!
# Names of symbols

A symbol table gives names their symbols. An alphabet is two lists of names, and
its table gives every name the symbol of its first place in them.
-/

namespace Predictive

def epsilonName : String := "ε"

def endName : String := "$"

def isReserved (name : String) : Bool := name == epsilonName || name == endName

/-! ## Symbol tables -/

/-- The entries are kept in the order of their names, so tables with the same entries are equal. -/
structure SymbolTable where
  entries : List (String × Symbol)
  ascending : Ascending Prod.fst entries
deriving DecidableEq

namespace SymbolTable

instance : EmptyCollection SymbolTable := ⟨⟨[], List.Pairwise.nil⟩⟩

def get? (t : SymbolTable) (name : String) : Option Symbol := (t.entries.find? fun e => e.1 = name).map Prod.snd

/-- Gives a name a symbol, in place of the one that it had. -/
def insert (t : SymbolTable) (name : String) (s : Symbol) : SymbolTable :=
  ⟨insertByKey Prod.fst (name, s) t.entries, t.ascending.insertByKey (name, s)⟩

def marks : SymbolTable := ((∅ : SymbolTable).insert epsilonName .epsilon).insert endName .endOfInput

@[simp] theorem get?_empty (name : String) : (∅ : SymbolTable).get? name = none := rfl

theorem get?_insert (t : SymbolTable) (name : String) (s : Symbol) (other : String) :
    (t.insert name s).get? other = if name = other then some s else t.get? other := by
  unfold get? insert
  rw [find?_insertByKey (name, s) other t.ascending]
  split <;> rfl

theorem mem_entries {t : SymbolTable} {name : String} {s : Symbol} : (name, s) ∈ t.entries ↔ t.get? name = some s := by
  rw [t.ascending.mem_iff_find?, get?, Option.map_eq_some_iff]
  constructor
  · exact fun h => ⟨_, h, rfl⟩
  · rintro ⟨⟨other, r⟩, h, rfl⟩
    have hname : other = name := by simpa using List.find?_some h
    rw [h, hname]

theorem ext {t u : SymbolTable} (h : ∀ name, t.get? name = u.get? name) : t = u := by
  obtain ⟨l, hl⟩ := t
  obtain ⟨m, hm⟩ := u
  have : l = m := hl.ext hm fun e =>
    (mem_entries (t := ⟨l, hl⟩)).trans (h e.1 ▸ (mem_entries (t := ⟨m, hm⟩)).symm)
  subst this
  rfl

end SymbolTable

/-! ## Alphabets -/

structure Alphabet where
  nonTerminals : List String
  terminals : List String
deriving DecidableEq

namespace Alphabet

/-- What a name means, told by its place in the lists. -/
def symbolOf? (a : Alphabet) (name : String) : Option Symbol :=
  if name = epsilonName then some .epsilon
  else if name = endName then some .endOfInput
  else match a.nonTerminals.idxOf? name with
    | some i => some (.nonTerminal i)
    | none => (a.terminals.idxOf? name).map .terminal

def nameOf? (a : Alphabet) : Symbol → Option String
  | .terminal i => a.terminals[i]?
  | .nonTerminal i => a.nonTerminals[i]?
  | .epsilon => some epsilonName
  | .endOfInput => some endName

/-- The two marks and the names with their symbols. -/
def entries (a : Alphabet) : List (String × Symbol) :=
  [(epsilonName, Symbol.epsilon), (endName, Symbol.endOfInput)] ++
    a.nonTerminals.mapIdx (fun i name => (name, Symbol.nonTerminal i)) ++
    a.terminals.mapIdx fun i name => (name, Symbol.terminal i)

def table (a : Alphabet) : SymbolTable := a.entries.foldr (fun e t => t.insert e.1 e.2) ∅

theorem find?_mapIdx (name : String) : ∀ (names : List String) (f : Nat → Symbol),
    (names.mapIdx fun i n => (n, f i)).find? (fun e => e.1 = name) = (names.idxOf? name).map fun i => (name, f i)
  | [], _ => rfl
  | n :: names, f => by
    rw [List.mapIdx_cons, List.find?_cons, List.idxOf?_cons]
    by_cases h : n = name
    · simp [h]
    · simp [h, find?_mapIdx name names fun i => f (i + 1), Function.comp_def]

theorem find?_entries (a : Alphabet) (name : String) :
    a.entries.find? (fun e => e.1 = name) = (a.symbolOf? name).map fun s => (name, s) := by
  unfold entries symbolOf?
  rw [List.find?_append, List.find?_append, find?_mapIdx, find?_mapIdx]
  by_cases hε : name = epsilonName
  · simp [hε]
  by_cases hend : name = endName
  · have hne : epsilonName ≠ endName := by decide
    simp [hend, hne, hne.symm]
  cases a.nonTerminals.idxOf? name <;> simp [hε, hend, Ne.symm hε, Ne.symm hend, Function.comp_def]

theorem get?_table (a : Alphabet) (name : String) : a.table.get? name = a.symbolOf? name := by
  have hfold : ∀ entries : List (String × Symbol), (entries.foldr (fun e t => t.insert e.1 e.2)
      (∅ : SymbolTable)).get? name = (entries.find? fun e => e.1 = name).map Prod.snd := by
    intro entries
    induction entries with
    | nil => rfl
    | cons e entries ih =>
      rw [List.foldr_cons, SymbolTable.get?_insert, ih]
      by_cases h : e.1 = name <;> simp [h]
  unfold table
  rw [hfold, find?_entries, Option.map_map]
  exact Option.map_id'

end Alphabet

end Predictive
