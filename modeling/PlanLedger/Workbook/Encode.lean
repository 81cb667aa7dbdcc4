import PlanLedger.Decimal.Text
import PlanLedger.Json.Basic
import PlanLedger.Planning.Function
import PlanLedger.Workbook.Basic

/-!
# Writing the parts of a workbook

Catalogs, options, formulas and planning functions are written in the JSON form in which they are
read, with all their fields.
-/

namespace PlanLedger

open Json

def Decimal.toJson (d : Decimal) : Json := string d.toText

namespace Json

def strings (l : List String) : Json := array (l.map string)

def ofMap {α : Type} (f : α → Json) (m : SortedMap String α) : Json :=
  object (m.toList.map fun e ↦ (e.1, f e.2))

end Json

def DimensionValue.toJson (v : DimensionValue) : Json :=
  object [("id", nat v.id), ("code", string v.code), ("name", string v.name)]

namespace Formula

def ReferenceData.toJson (d : ReferenceData) : Json :=
  object
    [("name", string d.name), ("key_figure", string d.keyFigure), ("kind", string d.kind.tag),
      ("version", ofOption string d.version), ("year", ofOption string d.year),
      ("filter", ofMap string d.filter)]

def Catalog.toJson (c : Catalog) : Json :=
  object
    [("constants", ofMap Decimal.toJson c.constants), ("sub_formulas", ofMap string c.subFormulas),
      ("references", ofMap ReferenceData.toJson c.references),
      ("conversions", ofMap (ofMap Decimal.toJson) c.conversions)]

end Formula

def Options.toJson (o : Options) : Json :=
  object [("scale", nat o.scale), ("max_expansion_depth", nat o.maxExpansionDepth)]

def PlanFormula.toJson (f : PlanFormula) : Json :=
  object
    [("name", string f.name), ("expression", string f.text),
      ("loop_dimensions", strings f.loopNames),
      ("reference_version", ofOption string f.referenceVersion),
      ("reference_year", ofOption string f.referenceYear)]

namespace PlanningFunction

def jsonParams : PlanningFunction → List (String × Json)
  | copy toVersion year period =>
    [("to_version", string toVersion), ("year", string year), ("period", ofOption string period)]
  | distribute groupBy reference =>
    [("group_by", strings groupBy), ("reference", string reference)]
  | convert targetUnit => [("target_unit", string targetUnit)]
  | repost => []
  | resetSlice filter => [("filter", ofMap string filter)]

/-- A planning function: its name beside its parameters. -/
def toJson (f : PlanningFunction) : Json := object (("kind", string f.kind) :: f.jsonParams)

end PlanningFunction

end PlanLedger
