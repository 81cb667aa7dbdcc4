import PlanLedger.Dimension.Registry
import PlanLedger.Fact.Cell

/-!
# Names of cells

A cell is named by the code of its key figure and, in brackets, the codes of its other dimensions.
-/

namespace PlanLedger.Registry

/-- The code of a value after the name of its dimension. -/
def qualifier (r : Registry) (p : Dimension × DimId) : String :=
  p.1.name ++ "=" ++ r.codeOrId p.1 p.2

/-- The name of a key figure with values on other dimensions. -/
def keyName (r : Registry) (keyFigure : DimId) (dims : List (Dimension × DimId)) : String :=
  let qualifiers := (dims.filter fun p ↦ p.1 ≠ .keyFigure).map r.qualifier
  let name := r.codeOrId .keyFigure keyFigure
  if qualifiers.isEmpty then name else name ++ "[" ++ ",".intercalate qualifiers ++ "]"

/-- The dimensions that the name of a cell lists before the extra ones. -/
def namedDimensions : List Dimension := [.version, .year, .period, .orgUnit, .service, .account]

def cellName (r : Registry) (c : Cell) : String :=
  let fixed := namedDimensions.filterMap fun d ↦ (c.get? d).map fun id ↦ (d, id)
  r.keyName c.keyFigure (fixed ++ c.extra.toList.map fun e ↦ (.extra e.1, e.2))

end PlanLedger.Registry
