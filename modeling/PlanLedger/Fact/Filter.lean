import PlanLedger.Fact.Cell

/-!
# Filters and scopes

A filter asks for one value on each of some dimensions. A scope limits reading to a session and a
period; where the filter itself asks for a period, the period of the scope does not count.
-/

namespace PlanLedger

abbrev Filter := SortedMap Dimension DimId

namespace Filter

/-- Whether a cell has every value that is asked for. -/
def admits (f : Filter) (c : Cell) : Bool :=
  f.toList.all fun e ↦ c.get? e.1 == some e.2

/-- The filter with the values of another one laid over its own. -/
def merged (f upper : Filter) : Filter := f.overlay upper

end Filter

/-- The part of the plan that is read. -/
structure Scope where
  session : Option SessionId := none
  period : Option DimId := none
deriving DecidableEq

namespace Scope

/-- The scope of one session, and of one period if it is given. -/
def ofSession (s : SessionId) (period : Option DimId := none) : Scope := ⟨some s, period⟩

/-- Whether a cell is within the session of a scope. -/
def holdsSession (s : Scope) (c : Cell) : Bool :=
  match s.session with
  | some session => c.session == session
  | none => true

/-- Whether a cell is within the period of a scope, which gives way to a filter on the period. -/
def holdsPeriod (s : Scope) (f : Filter) (c : Cell) : Bool :=
  match s.period with
  | some period => f.contains .period || c.period == period
  | none => true

/-- Whether a cell is within a scope that is read with a filter. -/
def contains (s : Scope) (f : Filter) (c : Cell) : Bool := s.holdsSession c && s.holdsPeriod f c

end Scope

/-- Whether reading with a filter and a scope reaches a cell. -/
def Filter.selects (f : Filter) (s : Scope) (c : Cell) : Bool := s.contains f c && f.admits c

end PlanLedger
