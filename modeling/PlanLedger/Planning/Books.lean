import PlanLedger.Planning.Error

/-!
# Work on the books

The books of an engine are its store and its ledger. Work on the books may fail, and a failure by
itself undoes nothing: the books stay as they are at that moment. Work on the store is therefore
done in a unit of work, which undoes what was done in it when the work fails.
-/

namespace PlanLedger

/-- A store and a ledger. -/
structure Books where
  store : Store
  ledger : Ledger
deriving DecidableEq

/-- Work on the books that may fail. The books are left as they are at that moment. -/
abbrev Working := EStateM PlanningError Books

/-- A result that does not depend on the books. -/
instance : MonadLift (Except PlanningError) Working where
  monadLift
    | .ok a => pure a
    | .error e => throw e

namespace Working

def store : Working Store := return (← get).store

/-- A change of the store, which may be refused. -/
def onStore {α : Type} (change : Store → Except StoreError (α × Store)) : Working α := fun b ↦
  match change b.store with
  | .ok (a, store) => .ok a { b with store }
  | .error e => .error (.store e) b

def record (run : RunId) (entry : Entry) : Working Unit := fun b ↦
  match b.ledger.record run entry with
  | .ok ledger => .ok () { b with ledger }
  | .error e => .error (.ledger e) b

/-- Does work in a unit of work. The changes of the store stay if the work succeeds and is to be
kept; otherwise they are undone. -/
def inUnit {α : Type} (keep : Bool) (work : Working α) : Working α := fun b ↦
  match b.store.beginUnit with
  | .error e => .error (.store e) b
  | .ok opened =>
    match work.run { b with store := opened } with
    | .error e worked => .error e { worked with store := worked.store.dropUnit }
    | .ok a worked =>
      match if keep then worked.store.commitUnit else worked.store.rollbackUnit with
      | .ok store => .ok a { worked with store }
      | .error e => .error (.store e) worked

end Working

end PlanLedger
