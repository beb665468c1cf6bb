import Predictive.Analysis.Follow
import Predictive.Table.Basic

/-!
# Filling a table

A rule claims the cells of its row under the lookaheads that its right side can
open with, and if that can vanish, under those that can follow the row's
nonterminal. The claims are written in the order of the rules. The plain table
keeps the last claim on a cell; the strict one refuses a cell that two
productions claim.
-/

namespace Predictive

/-- The cells that a rule claims, each group in the order of the symbols. -/
def Rule.claims? (r : Rule) (a : Analysis) : Option (List Cell) :=
  (a.first.firstOfSequence? r.right).bind fun ahead =>
    let opening := (ahead.toList.filter Symbol.isLookahead).map fun t =>
      Cell.mk ⟨r.left, t⟩ ⟨r.index, false⟩
    if Symbol.epsilon ∈ ahead then
      (a.follow.get? r.left).map fun after =>
        opening ++ after.toList.map fun t => ⟨⟨r.left, t⟩, ⟨r.index, true⟩⟩
    else some opening

def Grammar.claims? (g : Grammar) (a : Analysis) : Option (List Cell) :=
  (g.rules.mapM fun r : Rule => r.claims? a).map List.flatten

/-- A cell that holds another production than the incoming one. -/
structure Conflict where
  slot : Slot
  existing : Entry
  incoming : Entry
deriving DecidableEq

namespace Table

def fill (t : Table) (claims : List Cell) : Table := claims.foldl insert t

/-- Writes the claims up to the first that meets another production. -/
def fillStrictly (t : Table) : List Cell → Except Conflict Table
  | [] => .ok t
  | c :: claims =>
    match t.get? c.slot with
    | some existing =>
      if existing.production = c.entry.production then (t.insert c).fillStrictly claims
      else .error ⟨c.slot, existing, c.entry⟩
    | none => (t.insert c).fillStrictly claims

theorem eq_fill_of_fillStrictly {t u : Table} {claims : List Cell}
    (h : t.fillStrictly claims = .ok u) : u = t.fill claims := by
  induction claims generalizing t with
  | nil => cases h; rfl
  | cons c claims ih =>
    rw [fillStrictly] at h
    split at h
    · split at h
      · exact ih h
      · cases h
    · exact ih h

end Table

namespace Grammar

def table? (g : Grammar) (a : Analysis) : Option Table := (g.claims? a).map (∅ : Table).fill

def strictTable? (g : Grammar) (a : Analysis) : Option (Except Conflict Table) :=
  (g.claims? a).map (∅ : Table).fillStrictly

theorem table?_of_strictTable? {g : Grammar} {a : Analysis} {t : Table} (h : g.strictTable? a = some (.ok t)) :
    g.table? a = some t := by
  obtain ⟨claims, hclaims, hok⟩ := Option.map_eq_some_iff.mp h
  rw [table?, hclaims, Option.map_some, Table.eq_fill_of_fillStrictly hok]

end Grammar

end Predictive
