import PlanLedger.Formula.Expansion
import PlanLedger.Formula.Selection
import PlanLedger.Planning.Engine

/-!
# Compiled formulas

A formula is compiled once before it runs: it is read and expanded, its loop dimensions are found,
and every value of the current combination that it asks for is checked to be one of a loop
dimension. The combinations of a formula are all choices of one value on each loop dimension.
-/

namespace PlanLedger

open PlanningError (ofFormula ofRegistry)

/-- A formula as it is written down. -/
structure PlanFormula where
  name : String
  text : String
  /-- The names of the loop dimensions, the outermost first. -/
  loopNames : List String := []
  /-- The version that takes the place of the versions of reference data. -/
  referenceVersion : Option String := none
  /-- The year that takes the place of the years of reference data. -/
  referenceYear : Option String := none
deriving DecidableEq

/-- A formula that is ready to run. -/
structure CompiledFormula where
  name : String
  statement : Formula.Statement
  loops : List Dimension
  hasReferences : Bool
deriving DecidableEq

namespace Engine

/-- Adds the dimension of a name to loop dimensions, where it must not be yet. -/
def addLoop (e : Engine) (loops : List Dimension) (name : String) :
    Except PlanningError (List Dimension) := do
  let d ← ofRegistry (e.registry.dimension name)
  if d ∈ loops then .error (.request (.loopDeclaredTwice d)) else return loops ++ [d]

def compile (e : Engine) (f : PlanFormula) : Except PlanningError CompiledFormula := do
  let statement ← ofFormula (Formula.Statement.ofText f.text)
  let statement ← ofFormula
    (statement.expand e.catalog e.registry e.options.maxExpansionDepth)
  let loops ← f.loopNames.foldlM e.addLoop []
  let used := Formula.loopDimensions (statement.expr.filters ++ statement.target.filters)
  match used.find? fun d ↦ d ∉ loops with
  | some d => .error (.formula (.unboundLoop d.name))
  | none =>
    return { name := f.name, statement, loops, hasReferences := statement.expr.hasReferences }

end Engine

namespace Registry

/-- The combinations that extend one, with each value of a dimension in the order of the codes. -/
def extendBindings (b : Formula.Bindings) (d : Dimension) (ids : List DimId) :
    List Formula.Bindings :=
  ids.map fun id ↦ b.insert d id

/-- The combinations of some dimensions that extend given ones. The first dimension changes
slowest. -/
def combinationsFrom (r : Registry) (bs : List Formula.Bindings) :
    List Dimension → Except DimensionError (List Formula.Bindings)
  | [] => .ok bs
  | d :: rest => do
    let ids ← r.ids d
    combinationsFrom r (bs.flatMap fun b ↦ extendBindings b d ids) rest

/-- All combinations of values on some dimensions. -/
def combinations (r : Registry) (dims : List Dimension) :
    Except DimensionError (List Formula.Bindings) :=
  r.combinationsFrom [∅] dims

end Registry

end PlanLedger
