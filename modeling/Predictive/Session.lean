import Predictive.Grammar.Text
import Predictive.Table.Trace

/-!
# Sessions

A session holds a grammar, FIRST and FOLLOW sets and a table, and changes one of
them at a time. Nothing is computed anew unless a step says so, so the sets may
be partial or belong to an earlier grammar. A step that fails changes nothing.
-/

namespace Predictive

structure Session where
  grammar : Grammar
  sets : Analysis
  table : Table
deriving DecidableEq

inductive Failure where
  /-- A number that is looked up does not exist. -/
  | outOfRange
  | grammar (error : GrammarError)
  | conflict (report : ConflictReport)
deriving DecidableEq

inductive Step where
  | load (text : GrammarText)
  | addProduction (nonTerminal : Nat) (production : Production)
  | setStart (nonTerminal : Nat)
  /-- Solves for FIRST, stopped after `limit` passes if a limit is set. -/
  | solveFirst (limit : Option Nat)
  /-- Solves for FOLLOW over the current FIRST sets, stopped in the same way. -/
  | solveFollow (limit : Option Nat)
  | clearFirst (size : Nat)
  | clearFollow (size : Nat)
  | fillTable
  | fillTableStrictly
deriving DecidableEq

def orOutOfRange {α : Type} : Option α → Except Failure α
  | some a => .ok a
  | none => .error .outOfRange

theorem eq_some_of_orOutOfRange {α : Type} {o : Option α} {a : α} (h : orOutOfRange o = .ok a) : o = some a := by
  cases o with
  | none => cases h
  | some b =>
    cases h
    rfl

namespace Session

/-- A session on a grammar, with empty sets and no table. -/
def ofGrammar (g : Grammar) : Session := ⟨g, ⟨.empty g.size, .empty g.size⟩, ∅⟩

def withFirst (s : Session) (first : SetFamily) : Session :=
  { s with sets := { s.sets with first := first } }

def withFollow (s : Session) (follow : SetFamily) : Session :=
  { s with sets := { s.sets with follow := follow } }

def solveFirst? (s : Session) (limit : Option Nat) : Option Session :=
  s.grammar.firstPasses?.map fun families =>
    s.withFirst (stateAfter (.empty s.grammar.size) families limit)

def solveFollow? (s : Session) (limit : Option Nat) : Option Session :=
  (s.grammar.followPasses? s.sets.first).map fun families =>
    s.withFollow (stateAfter (.empty s.grammar.size) families limit)

def fillStrictly (s : Session) : Except Failure Session :=
  match s.grammar.strictTable? s.sets with
  | some (.ok t) => .ok { s with table := t }
  | some (.error c) => (orOutOfRange (c.report? s.grammar)).bind fun r => .error (.conflict r)
  | none => .error .outOfRange

def step (s : Session) : Step → Except Failure Session
  | .load text =>
    match text.read with
    | .ok g => .ok { s with grammar := g }
    | .error e => .error (.grammar e)
  | .addProduction i p =>
    orOutOfRange ((s.grammar.addProduction? i p).map fun g => { s with grammar := g })
  | .setStart i => .ok { s with grammar := s.grammar.withStart i }
  | .solveFirst limit => orOutOfRange (s.solveFirst? limit)
  | .solveFollow limit => orOutOfRange (s.solveFollow? limit)
  | .clearFirst size => .ok (s.withFirst (.empty size))
  | .clearFollow size => .ok (s.withFollow (.empty size))
  | .fillTable => orOutOfRange ((s.grammar.table? s.sets).map fun t => { s with table := t })
  | .fillTableStrictly => s.fillStrictly

/-- The session after a step, or as it was if the step fails. -/
def advance (s : Session) (c : Step) : Session :=
  match s.step c with
  | .ok t => t
  | .error _ => s

def run (s : Session) (steps : List Step) : Session := steps.foldl advance s

/-- What holds of a session and is kept by every step that succeeds holds after
every run. -/
theorem run_induction {motive : Session → Prop} {s : Session} (steps : List Step) (h : motive s)
    (hstep : ∀ s c t, c ∈ steps → motive s → s.step c = .ok t → motive t) :
    motive (s.run steps) := by
  induction steps generalizing s with
  | nil => exact h
  | cons c steps ih =>
    refine ih ?_ fun s d t hd => hstep s d t (List.mem_cons_of_mem _ hd)
    unfold advance
    split
    · rename_i t ht
      exact hstep s c t List.mem_cons_self h ht
    · exact h

end Session

end Predictive
