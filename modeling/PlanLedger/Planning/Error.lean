import PlanLedger.Formula.Error
import PlanLedger.Ledger
import PlanLedger.Store.Basic

/-!
# What can go wrong in planning

A request may be wrong in itself; otherwise the formula, the store or the ledger refuses what it
asks for.
-/

namespace PlanLedger

/-- What is wrong with a request. -/
inductive RequestFault where
  | scaleTooLarge (scale : Nat)
  | noExpansion
  | loopDeclaredTwice (d : Dimension)
  /-- A cell must not name a dimension that its session or key figure fixes. -/
  | fixedDimension (d : Dimension)
  | cellWithoutPeriod
  | cellWithoutOrgUnit
  | copyOntoSource (version year : String)
  | unknownFunction (kind : String)
  | unknownParameter (kind name : String)
  | missingParameter (kind name : String)
deriving DecidableEq

/-- The greatest number of decimals that results may have. -/
def maxScale : Nat := 28

def RequestFault.message : RequestFault → String
  | scaleTooLarge scale =>
    "scale " ++ toString scale ++ " exceeds the maximum of " ++ toString maxScale
  | noExpansion => "max_expansion_depth must be at least 1"
  | loopDeclaredTwice d => "loop dimension " ++ d.name ++ " declared twice"
  | fixedDimension d => d.name ++ " is fixed by the session and key figure"
  | cellWithoutPeriod => "a cell needs a Period"
  | cellWithoutOrgUnit => "a cell needs an OrgUnit"
  | copyOntoSource version year =>
    "copy target " ++ version ++ "/" ++ year ++ " is the source session itself"
  | unknownFunction kind => "unknown planning function '" ++ kind ++ "'"
  | unknownParameter kind name => kind ++ " does not take a '" ++ name ++ "' parameter"
  | missingParameter kind name => kind ++ " needs '" ++ name ++ "'"

/-- What can go wrong in planning. -/
inductive PlanningError where
  | formula (e : Formula.FormulaError)
  | store (e : StoreError)
  | ledger (e : LedgerError)
  | request (fault : RequestFault)
deriving DecidableEq

namespace PlanningError

def message : PlanningError → String
  | formula e => e.message
  | store e => e.message
  | ledger e => e.message
  | request fault => "Invalid request: " ++ fault.message

/-- The result of work on a formula, as part of planning. -/
def ofFormula {α : Type} : Except Formula.FormulaError α → Except PlanningError α
  | .ok a => .ok a
  | .error e => .error (formula e)

/-- The result of work on dimensions, as part of planning. -/
def ofRegistry {α : Type} (x : Except DimensionError α) : Except PlanningError α :=
  ofFormula (Formula.ofRegistry x)

/-- The result of work on the store, as part of planning. -/
def ofStore {α : Type} : Except StoreError α → Except PlanningError α
  | .ok a => .ok a
  | .error e => .error (store e)

end PlanningError

end PlanLedger
