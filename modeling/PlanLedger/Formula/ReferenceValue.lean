import PlanLedger.Formula.Catalog
import PlanLedger.Formula.Selection
import PlanLedger.Store.Reading

/-!
# Values of reference data

A look-up in reference data is an aggregate over the facts of all sessions. The source says which
facts: those with its codes, its version and its year, where a formula may set another version and
year. The filters of the look-up are laid over them. The value is put in place of the look-up for
each combination before the expression is evaluated.
-/

namespace PlanLedger.Formula

/-- Where values of reference data come from. -/
structure ReferenceContext where
  store : Store
  registry : Registry
  catalog : Catalog
  /-- The version that takes the place of the version of a source. -/
  version : Option String := none
  /-- The year that takes the place of the year of a source. -/
  year : Option String := none

namespace ReferenceContext

/-- The filter that asks for the value of a text on a dimension, if there is a text. -/
def pin (x : ReferenceContext) (f : Filter) (d : Dimension) :
    Option String → Except FormulaError Filter
  | some text => return f.insert d (← ofRegistry (x.registry.resolve d text))
  | none => .ok f

/-- The filter of a source: its codes in the order of their names, its version and its year. -/
def sourceFilter (x : ReferenceContext) (data : ReferenceData) : Except FormulaError Filter := do
  let codes ← data.filter.toList.mapM fun e ↦ ofRegistry do
    let d ← x.registry.dimension e.1
    return (d, ← x.registry.resolve d e.2)
  let f ← x.pin (.ofList codes) .version (x.version <|> data.version)
  x.pin f .year (x.year <|> data.year)

def value (x : ReferenceContext) (b : Bindings) (call : ReferenceCall) :
    Except FormulaError Decimal := do
  let data ← x.catalog.reference call.name
  let keyFigure ← ofRegistry (x.registry.resolve .keyFigure data.keyFigure)
  let f ← x.sourceFilter data
  let upper ← resolveFilters x.registry b call.filters
  match x.store.aggregate? data.kind keyFigure (f.merged upper) {} with
  | some value => return value
  | none => .error .outOfRange

/-- The number in place of a leaf that looks up reference data. -/
def substituteLeaf (x : ReferenceContext) (b : Bindings) : Expr → Except FormulaError Expr
  | .reference call => return .number (← x.value b call)
  | e => .ok e

/-- An expression with the values in place of the look-ups, from left to right. -/
def substitute (x : ReferenceContext) (b : Bindings) (e : Expr) : Except FormulaError Expr :=
  e.bindLeaves (x.substituteLeaf b)

end ReferenceContext

end PlanLedger.Formula
