import PlanLedger.Decimal.Basic
import PlanLedger.Fact.Cell

/-!
# Facts, sessions and batches

A fact holds a value and a reference value, each with a unit if it has one, under a key. Facts are
written in batches, and each batch belongs to a session, which stands for one version and year of
the plan.
-/

namespace PlanLedger

/-- What a fact says: a value, a reference value and their units. -/
structure FactValues where
  value : Decimal := .zero
  refValue : Decimal := .zero
  unit : Option String := none
  refUnit : Option String := none
deriving DecidableEq

/-- A stored fact. -/
structure Fact where
  id : FactId
  key : FactKey
  values : FactValues
deriving DecidableEq

namespace Fact

def cell (f : Fact) : Cell := f.key.cell

def value (f : Fact) : Decimal := f.values.value

end Fact

/-- One version and year of the plan that is worked on. -/
structure Session where
  name : String := ""
  version : DimId
  year : DimId
  /-- The organisational unit of facts that name none. -/
  orgUnit : Option DimId := none
deriving DecidableEq

/-- What the facts of a batch are meant to do. -/
inductive BatchAction where
  | delta
  | overwrite
  | resetToZero
  | finalSummary
deriving DecidableEq

namespace BatchAction

def name : BatchAction → String
  | delta => "delta"
  | overwrite => "overwrite"
  | resetToZero => "reset_to_zero"
  | finalSummary => "final_summary"

def ofName? : String → Option BatchAction
  | "delta" => some delta
  | "overwrite" => some overwrite
  | "reset_to_zero" => some resetToZero
  | "final_summary" => some finalSummary
  | _ => none

end BatchAction

/-- A group of facts written together. Of two batches the one with the larger number is newer. -/
structure Batch where
  session : SessionId
  action : BatchAction
  description : String := ""
deriving DecidableEq

end PlanLedger
