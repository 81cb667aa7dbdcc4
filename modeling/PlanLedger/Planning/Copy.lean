import PlanLedger.Planning.Work

/-!
# Copying to another version

The current facts of a session are written to a new batch of the session of another version and
year, which is added if there is none. Facts of the target that the copy does not reach stay as they
are.
-/

namespace PlanLedger

open PlanningError (ofRegistry)

/-- The cell of the target session that corresponds to a cell of the source. -/
def copiedCell (session : SessionId) (version year : DimId) (c : Cell) : Cell :=
  { c with session, version, year }

/-- Writes one copied fact. The old value is the one that was current before the copy. -/
def copyFact (x : WorkContext) (before : SortedMap Cell Decimal) (batch : BatchId)
    (place : Cell → Cell) (fact : Fact) : Working Tally :=
  let c := place fact.cell
  x.put (c.inBatch batch) fact.values ((before.get? c).getD .zero)

def WorkContext.periodFilter (x : WorkContext) : Option String → Except PlanningError Filter
  | none => .ok ∅
  | some text => return .ofList [(.period, ← ofRegistry (x.registry.resolve .period text))]

def valuesByCell (facts : List Fact) : SortedMap Cell Decimal :=
  .ofList (facts.map fun fact ↦ (fact.cell, fact.value))

/-- Copies the facts of a session, or those of one period, to another version and year. -/
def copy (x : WorkContext) (toVersion year : String) (period : Option String) : Working Tally := do
  let version ← ofRegistry (x.registry.resolve .version toVersion)
  let yearId ← ofRegistry (x.registry.resolve .year year)
  let f ← x.periodFilter period
  let facts := (← Working.store).selectCurrent f x.scope
  if facts.isEmpty then return {}
  else
    let (target, _) ← Working.onStore fun s ↦ .ok (s.findOrCreateSession version yearId)
    if target = x.sessionId then
      throw (.request (.copyOntoSource toVersion (x.registry.codeOrId .year yearId)))
    else
      let before := valuesByCell ((← Working.store).selectCurrent f (.ofSession target))
      let batch ← Working.onStore (·.createBatch
        { session := target, action := .overwrite,
          description := "copy of session " ++ toString x.sessionId })
      tallyOver (copyFact x before batch (copiedCell target version yearId)) facts

end PlanLedger
