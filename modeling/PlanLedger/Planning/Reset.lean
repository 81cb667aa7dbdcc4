import PlanLedger.Planning.Work

/-!
# Setting facts to zero

The current facts of a session on some values get zero for their value and reference value, unless
both are zero already.
-/

namespace PlanLedger

open PlanningError (ofRegistry)

def WorkContext.filter (x : WorkContext) (codes : SortedMap String String) :
    Except PlanningError Filter := do
  let pairs ← codes.toList.mapM fun e ↦ ofRegistry do
    let d ← x.registry.dimension e.1
    return (d, ← x.registry.resolve d e.2)
  return .ofList pairs

def resetFact (x : WorkContext) (fact : Fact) : Working Tally :=
  if fact.values.value.isZero && fact.values.refValue.isZero then return {}
  else x.change fact fun values ↦ { values with value := .zero, refValue := .zero }

/-- Sets the facts of a session on some values to zero. -/
def resetSlice (x : WorkContext) (codes : SortedMap String String) : Working Tally := do
  let f ← x.filter codes
  tallyOver (resetFact x) ((← Working.store).selectCurrent f x.scope)

end PlanLedger
