import PlanLedger.Json.Decode
import PlanLedger.Planning.Function
import PlanLedger.Workbook.Basic

/-!
# Workbooks in JSON

The JSON form of a workbook and of its parts. Fields that a workbook or a session does not have are
refused; other parts may have more fields than are read.
-/

namespace PlanLedger

open Json

def DimensionValue.ofJson? (v : Json) : Option DimensionValue := do
  let fields ← fields? ["id", "code", "name"] v
  let id ← required? nat32? "id" fields
  let code ← required? string? "code" fields
  let name ← orDefault? string? "name" "" fields
  some { id, code, name }

namespace FactValues

def fieldNames : List String := ["value", "ref_value", "unit", "ref_unit"]

/-- Values of a fact from the fields of a record. -/
def ofFields? (fields : Fields) : Option FactValues := do
  let value ← orDefault? decimal? "value" .zero fields
  let refValue ← orDefault? decimal? "ref_value" .zero fields
  let unit ← optional? string? "unit" fields
  let refUnit ← optional? string? "ref_unit" fields
  some { value, refValue, unit, refUnit }

def ofJson? (v : Json) : Option FactValues := do ofFields? (← fields? fieldNames v)

end FactValues

namespace Formula

def aggregateOfJson? (v : Json) : Option Aggregate := do Aggregate.ofTag? (← v.choice?)

def ReferenceData.ofJson? (v : Json) : Option ReferenceData := do
  let fields ← fields? ["name", "key_figure", "kind", "version", "year", "filter"] v
  let name ← required? string? "name" fields
  let keyFigure ← required? string? "key_figure" fields
  let kind ← orDefault? aggregateOfJson? "kind" .sum fields
  let version ← optional? string? "version" fields
  let year ← optional? string? "year" fields
  let filter ← orDefault? (map? string?) "filter" ∅ fields
  some { name, keyFigure, kind, version, year, filter }

def Catalog.ofJson? (v : Json) : Option Catalog := do
  let fields ← fields? ["constants", "sub_formulas", "references", "conversions"] v
  let constants ← orDefault? (map? decimal?) "constants" ∅ fields
  let subFormulas ← orDefault? (map? string?) "sub_formulas" ∅ fields
  let references ← orDefault? (map? ReferenceData.ofJson?) "references" ∅ fields
  let conversions ← orDefault? (map? (map? decimal?)) "conversions" ∅ fields
  some { constants, subFormulas, references, conversions }

end Formula

def Options.ofJson? (v : Json) : Option Options := do
  let fields ← fields? ["scale", "max_expansion_depth"] v
  let start : Options := {}
  let scale ← orDefault? nat32? "scale" start.scale fields
  let maxExpansionDepth ← orDefault? nat64? "max_expansion_depth" start.maxExpansionDepth fields
  some { scale, maxExpansionDepth }

def PlanFormula.ofJson? (v : Json) : Option PlanFormula := do
  let fields ← fields?
    ["name", "expression", "loop_dimensions", "reference_version", "reference_year"] v
  let name ← required? string? "name" fields
  let text ← required? string? "expression" fields
  let loopNames ← orDefault? (list? string?) "loop_dimensions" [] fields
  let referenceVersion ← optional? string? "reference_version" fields
  let referenceYear ← optional? string? "reference_year" fields
  some { name, text, loopNames, referenceVersion, referenceYear }

namespace PlanningFunction

/-- The parameters of the planning function of a name, from the JSON value that gives them. -/
def ofParams? (kind : String) (params : Json) : Option PlanningFunction :=
  match kind with
  | "copy" => do
    let fields ← fields? ["to_version", "year", "period"] params
    let toVersion ← required? string? "to_version" fields
    let year ← required? string? "year" fields
    some (copy toVersion year (← optional? string? "period" fields))
  | "distribute" => do
    let fields ← fields? ["group_by", "reference"] params
    let groupBy ← orDefault? (list? string?) "group_by" [] fields
    some (distribute groupBy (← required? string? "reference" fields))
  | "convert" => do
    let fields ← fields? ["target_unit"] params
    some (convert (← required? string? "target_unit" fields))
  | "repost" => do
    let _ ← fields? [] params
    some repost
  | "reset_slice" => do
    let fields ← fields? ["filter"] params
    some (resetSlice (← orDefault? (map? string?) "filter" ∅ fields))
  | _ => none

/-- A planning function: an object of its name and its parameters, or an array that begins with the
name. -/
def ofJson? : Json → Option PlanningFunction
  | array (string kind :: params) => ofParams? kind (array params)
  | v => do ofParams? (← required? string? "kind" (← objectFields? ["kind"] v)) v

end PlanningFunction

def SessionSpec.ofJson? (v : Json) : Option SessionSpec := do
  let fields ← onlyFields? ["name", "version", "year", "org_unit"] v
  let name ← required? string? "name" fields
  let version ← required? string? "version" fields
  let year ← required? string? "year" fields
  let orgUnit ← optional? string? "org_unit" fields
  some { name, version, year, orgUnit }

/-- A fact of a workbook, whose values are fields beside the others. It has no unreadable part, not
even in a field that means nothing. -/
def FactSpec.ofJson? (v : Json) : Option FactSpec := do
  if !v.isReadable then none
  let fields ← objectFields? (["session", "key_figure", "dimensions"] ++ FactValues.fieldNames) v
  let session ← required? string? "session" fields
  let keyFigure ← required? string? "key_figure" fields
  let dimensions ← orDefault? (map? string?) "dimensions" ∅ fields
  let values ← FactValues.ofFields? fields
  some { session, keyFigure, dimensions, values }

def Workbook.ofJson? (v : Json) : Option Workbook := do
  let fields ← onlyFields?
    ["dimensions", "sessions", "facts", "catalog", "formulas", "options"] v
  let dimensions ← orDefault? (map? (list? DimensionValue.ofJson?)) "dimensions" ∅ fields
  let sessions ← orDefault? (list? SessionSpec.ofJson?) "sessions" [] fields
  let facts ← orDefault? (list? FactSpec.ofJson?) "facts" [] fields
  let catalog ← orDefault? Formula.Catalog.ofJson? "catalog" {} fields
  let formulas ← orDefault? (list? PlanFormula.ofJson?) "formulas" [] fields
  let options ← orDefault? Options.ofJson? "options" {} fields
  some { dimensions, sessions, facts, catalog, formulas, options }

end PlanLedger
