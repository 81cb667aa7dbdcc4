import PlanLedger.Planning.FunctionRun
import PlanLedger.Workbook.Encode

/-!
# Reports in JSON

The JSON form of sessions, batches and facts, of the entries of the ledger, and of what came of a
run.
-/

namespace PlanLedger

open Json

def Session.toJson (numbered : SessionId × Session) : Json :=
  let (id, s) := numbered
  object
    [("id", nat id), ("name", string s.name), ("version", nat s.version), ("year", nat s.year),
      ("org_unit", ofOption nat s.orgUnit)]

def Batch.jsonFields (numbered : BatchId × Batch) : List (String × Json) :=
  let (id, b) := numbered
  [("id", nat id), ("session", nat b.session), ("action", string b.action.name),
    ("description", string b.description)]

def Batch.toJson (numbered : BatchId × Batch) : Json := object (jsonFields numbered)

def Cell.jsonFields (c : Cell) : List (String × Json) :=
  [("session", nat c.session), ("version", nat c.version), ("year", nat c.year),
    ("period", nat c.period), ("org_unit", nat c.orgUnit), ("service", ofOption nat c.service),
    ("account", ofOption nat c.account), ("key_figure", nat c.keyFigure),
    ("extra", object (c.extra.toList.map fun e ↦ (e.1, nat e.2)))]

def Cell.toJson (c : Cell) : Json := object c.jsonFields

/-- A key, as the fields of its cell beside its batch. -/
def FactKey.toJson (k : FactKey) : Json := object (("batch", nat k.batch) :: k.cell.jsonFields)

def Fact.toJson (f : Fact) : Json :=
  object
    [("id", nat f.id), ("key", f.key.toJson), ("value", f.values.value.toJson),
      ("ref_value", f.values.refValue.toJson), ("unit", ofOption string f.values.unit),
      ("ref_unit", ofOption string f.values.refUnit)]

def RunSource.toJson : RunSource → Json
  | formula name => object [("type", string "formula"), ("name", string name)]
  | function name => object [("type", string "function"), ("name", string name)]

def RunEntry.toJson (run : RunId) (e : RunEntry) : Json :=
  object
    [("run", nat run), ("seq", nat e.seq), ("key", e.key.toJson), ("key_name", string e.cellName),
      ("old_value", e.oldValue.toJson), ("new_value", e.newValue.toJson)]

def entriesToJson (run : RunId) (entries : List RunEntry) : Json :=
  array (entries.map (RunEntry.toJson run))

def RunReport.toJson (r : RunReport) : Json :=
  object
    [("run",
      object [("id", nat r.id), ("source", r.source.toJson), ("preview", bool r.preview)]),
      ("entries", entriesToJson r.id r.entries)]

def RowError.toJson (e : RowError) : Json :=
  object [("key_name", string e.cellName), ("message", string e.fault.message)]

def FunctionOutcome.toJson (o : FunctionOutcome) : Json :=
  object
    [("affected", nat o.affected), ("errors", array (o.errors.map RowError.toJson)),
      ("run", nat o.run)]

end PlanLedger
