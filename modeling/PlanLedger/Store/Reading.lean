import PlanLedger.Fact.Aggregate
import PlanLedger.Fact.Filter
import PlanLedger.Store.Basic

/-!
# Reading the store

A filter and a scope select facts. Of the facts of one cell only the one in the newest batch is
current; values and aggregates are read from the current facts.
-/

namespace PlanLedger.Store

/-- The facts that a filter and a scope select, in the order of their keys. -/
def select (s : Store) (f : Filter) (scope : Scope) : List Fact :=
  s.allFacts.filter fun fact ↦ f.selects scope fact.cell

/-- The store without the facts that a filter and a scope select. -/
def deleteWhere (s : Store) (f : Filter) (scope : Scope) : Store :=
  { s with facts := s.facts.filter fun key _ ↦ !f.selects scope key.cell }

/-- Deletes the facts that a filter and a scope select; gives their number and what is left. -/
def delete (s : Store) (f : Filter) (scope : Scope) : Nat × Store :=
  let left := s.deleteWhere f scope
  (s.facts.size - left.facts.size, left)

/-- Puts a fact in the place of its cell, unless the fact there is from a batch that is not older.
-/
def keepNewest (m : SortedMap Cell Fact) (fact : Fact) : SortedMap Cell Fact :=
  match m.get? fact.cell with
  | some kept => if fact.key.batch ≤ kept.key.batch then m else m.insert fact.cell fact
  | none => m.insert fact.cell fact

/-- The newest fact of each cell in a list, by cell. -/
def newestPerCell (facts : List Fact) : SortedMap Cell Fact := facts.foldl keepNewest ∅

/-- The current facts that a filter and a scope select, in the order of their cells. -/
def selectCurrent (s : Store) (f : Filter) (scope : Scope) : List Fact :=
  (newestPerCell (s.select f scope)).values

def currentFact? (s : Store) (c : Cell) : Option Fact :=
  let f : Filter := .ofList
    [(.keyFigure, c.keyFigure), (.period, c.period), (.orgUnit, c.orgUnit)]
  (s.selectCurrent f (.ofSession c.session)).find? fun fact ↦ fact.cell == c

/-- The current value of a cell, zero if it has no fact. -/
def currentValue (s : Store) (c : Cell) : Decimal :=
  ((s.currentFact? c).map Fact.value).getD .zero

/-- The current facts of a key figure that a filter and a scope select. -/
def currentOf (s : Store) (keyFigure : DimId) (f : Filter) (scope : Scope) : List Fact :=
  s.selectCurrent (f.insert .keyFigure keyFigure) scope

/-- The value of the first current fact of a key figure, zero if there is none. -/
def get (s : Store) (keyFigure : DimId) (f : Filter) (scope : Scope) : Decimal :=
  ((s.currentOf keyFigure f scope).head?.map Fact.value).getD .zero

/-- The aggregate of the current facts of a key figure. There is no answer if a sum does not
fit. -/
def aggregate? (s : Store) (kind : Aggregate) (keyFigure : DimId) (f : Filter) (scope : Scope) :
    Option Decimal :=
  kind.ofValues? ((s.currentOf keyFigure f scope).map Fact.value)

end PlanLedger.Store
