import PlanLedger.Planning.Books
import PlanLedger.Planning.Engine
import PlanLedger.Planning.Naming

/-!
# The work of planning functions

A planning function goes through facts, writes some of them and lists each written fact in the
ledger. A fact that it cannot calculate is reported and left as it is. What it did is tallied: the
number of facts it wrote, and the reports.
-/

namespace PlanLedger

/-- Why a planning function leaves a fact as it is. -/
inductive RowFault where
  | groupSumOverflow
  | rescaleOverflow
  | convertOverflow (source target : String)
  | referenceOverflow
deriving DecidableEq

def RowFault.message : RowFault → String
  | groupSumOverflow => "group sum overflows"
  | rescaleOverflow => "overflow while rescaling"
  | convertOverflow source target => "overflow converting " ++ source ++ " to " ++ target
  | referenceOverflow => "overflow converting the reference value"

/-- A fact that was left as it is, by the name of its cell. -/
structure RowError where
  cellName : String
  fault : RowFault
deriving DecidableEq

def RowError.message (e : RowError) : String := e.cellName ++ ": " ++ e.fault.message

/-- What a planning function works with. -/
structure WorkContext where
  registry : Registry
  catalog : Formula.Catalog
  scale : Nat
  sessionId : SessionId
  session : Session
  /-- The run under which written facts are listed. -/
  run : RunId

/-- The scope of the session that is worked on. -/
def WorkContext.scope (x : WorkContext) : Scope := .ofSession x.sessionId

/-! ## Tallies -/

/-- What was done with facts: how many were written, and which ones were left as they are. -/
structure Tally where
  affected : Nat := 0
  errors : List RowError := []
deriving DecidableEq

/-- What was done first and what was done then. -/
def Tally.add (a b : Tally) : Tally := ⟨a.affected + b.affected, a.errors ++ b.errors⟩

/-- Works on things one after the other and adds up what was done. -/
def tallyOver {ι : Type} (step : ι → Working Tally) : List ι → Working Tally
  | [] => return {}
  | i :: rest => do
    let first ← step i
    return first.add (← tallyOver step rest)

namespace WorkContext

def rejected (x : WorkContext) (facts : List Fact) (fault : RowFault) : Tally :=
  { errors := facts.map fun fact ↦ { cellName := x.registry.cellName fact.cell, fault } }

def record (x : WorkContext) (key : FactKey) (oldValue newValue : Decimal) : Working Tally := do
  Working.record x.run { key, cellName := x.registry.cellName key.cell, oldValue, newValue }
  return { affected := 1 }

/-- Stores values under a key and lists them. -/
def put (x : WorkContext) (key : FactKey) (values : FactValues) (oldValue : Decimal) :
    Working Tally := do
  let _ ← Working.onStore (·.put key values)
  x.record key oldValue values.value

/-- Changes the values of a fact and lists the change. -/
def change (x : WorkContext) (fact : Fact) (f : FactValues → FactValues) : Working Tally := do
  Working.onStore fun s ↦ return ((), ← s.update fact.key fact.values f)
  x.record fact.key fact.value (f fact.values).value

end WorkContext

end PlanLedger
