import PlanLedger.Planning.Convert
import PlanLedger.Planning.Copy
import PlanLedger.Planning.Distribute
import PlanLedger.Planning.Function
import PlanLedger.Planning.Repost
import PlanLedger.Planning.Reset
import PlanLedger.Planning.Run

/-!
# Running planning functions

A planning function runs in a unit of work and under a run of the ledger, like a formula. Facts that
it reports and leaves as they are do not make it fail.
-/

namespace PlanLedger

open PlanningError (ofStore)

/-- What came of a planning function, with the entries of its run. -/
structure FunctionOutcome where
  run : RunId
  /-- The number of facts that the function wrote. -/
  affected : Nat
  errors : List RowError
  entries : List RunEntry
deriving DecidableEq

def PlanningFunction.work (f : PlanningFunction) (x : WorkContext) : Working Tally :=
  match f with
  | copy toVersion year period => PlanLedger.copy x toVersion year period
  | distribute groupBy reference => PlanLedger.distribute x groupBy reference
  | convert targetUnit => PlanLedger.convert x targetUnit
  | repost => PlanLedger.repost x
  | resetSlice filter => PlanLedger.resetSlice x filter

namespace Engine

/-- The session that a planning function is to work on. -/
def sessionOfWork (e : Engine) (id : SessionId) : Except PlanningError Session := do
  e.options.validate
  ofStore (e.store.session id)

/-- What a planning function works with on a session, under a run. -/
def workContext (e : Engine) (sessionId : SessionId) (session : Session) (run : RunId) :
    WorkContext :=
  { registry := e.registry, catalog := e.catalog, scale := e.options.scale, sessionId, session,
    run }

def runFunction (e : Engine) (f : PlanningFunction) (sessionId : SessionId) :
    Except PlanningError FunctionOutcome × Engine :=
  match e.sessionOfWork sessionId with
  | .error err => (.error err, e)
  | .ok session =>
    match e.underRun (.function f.kind) false fun run ↦
        f.work (e.workContext sessionId session run) with
    | (.error err, e) => (.error err, e)
    | (.ok (run, tally), e) => (.ok { tally with run, entries := e.ledger.entries run }, e)

end Engine

end PlanLedger
