import PlanLedger.Fact.Filter
import PlanLedger.Formula.Error

/-!
# What references select

With the values of the current combination, the filters of a reference become a filter on facts.
-/

namespace PlanLedger.Formula

/-- The value of the current combination on each loop dimension. -/
abbrev Bindings := SortedMap Dimension DimId

/-- The number of the value that a filter asks for. -/
def DimFilter.resolve (r : Registry) (b : Bindings) (f : DimFilter) : Except FormulaError DimId :=
  match f.value with
  | .id id => .ok id
  | .code text => ofRegistry (r.resolve f.dimension text)
  | .loop =>
    match b.get? f.dimension with
    | some id => .ok id
    | none => .error (.unboundLoop f.dimension.name)

/-- The dimension and value that a filter asks for. -/
def DimFilter.resolvePair (r : Registry) (b : Bindings) (f : DimFilter) :
    Except FormulaError (Dimension × DimId) :=
  return (f.dimension, ← f.resolve r b)

/-- The dimensions and values that filters ask for, in the order of the filters. -/
def resolvePairs (r : Registry) (b : Bindings) (filters : List DimFilter) :
    Except FormulaError (List (Dimension × DimId)) :=
  filters.mapM (DimFilter.resolvePair r b)

/-- The filter on facts that filters make; of two on one dimension the later one counts. -/
def resolveFilters (r : Registry) (b : Bindings) (filters : List DimFilter) :
    Except FormulaError Filter :=
  return .ofList (← resolvePairs r b filters)

/-- The number of the key figure of a reference. -/
def CellRef.resolveKeyFigure (r : Registry) (b : Bindings) (ref : CellRef) :
    Except FormulaError DimId :=
  DimFilter.resolve r b ⟨.keyFigure, ref.keyFigure⟩

/-- The key figure and the filter of a reference, the key figure first. -/
def CellRef.resolve (r : Registry) (b : Bindings) (ref : CellRef) :
    Except FormulaError (DimId × Filter) := do
  let keyFigure ← ref.resolveKeyFigure r b
  let filter ← resolveFilters r b ref.filters
  return (keyFigure, filter)

end PlanLedger.Formula
