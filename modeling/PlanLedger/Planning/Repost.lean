import PlanLedger.Planning.Work

/-!
# Writing the newest batch again

The facts of the newest batch of a session are written to a new batch with the same action.
-/

namespace PlanLedger

open PlanningError (ofStore)

def repostFact (x : WorkContext) (batch : BatchId) (fact : Fact) : Working Tally :=
  x.put (fact.cell.inBatch batch) fact.values fact.value

/-- Writes the facts of the newest batch of a session again in a new one. -/
def repost (x : WorkContext) : Working Tally := do
  match ← ofStore ((← Working.store).latestBatch x.sessionId) with
  | none => return {}
  | some (latest, batch) =>
    let facts ← ofStore ((← Working.store).batchFacts latest)
    let id ← Working.onStore (·.createBatch
      { session := x.sessionId, action := batch.action,
        description := "repost of batch " ++ toString latest })
    tallyOver (repostFact x id) facts

end PlanLedger
