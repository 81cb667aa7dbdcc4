import PlanLedger.Fact.Basic

/-!
# The ledger of runs

Every run of a formula or a planning function is listed under a number, with one entry for each
cell it touched, in the order in which it touched them. Numbers are not used again, even if a run
is struck from the ledger.
-/

namespace PlanLedger

abbrev RunId := Nat

/-- What was run. -/
inductive RunSource where
  | formula (name : String)
  | function (name : String)
deriving DecidableEq

namespace RunSource

def name : RunSource → String
  | formula name => name
  | function name => name

def describe : RunSource → String
  | formula name => "formula " ++ name
  | function name => "function " ++ name

end RunSource

/-- One touched cell: its key, the name of the cell, and its value before and after. -/
structure Entry where
  key : FactKey
  cellName : String
  oldValue : Decimal
  newValue : Decimal
deriving DecidableEq

/-- An entry as the ledger keeps it, with its place among the entries of its run. -/
structure RunEntry extends Entry where
  /-- The place of the entry, where the first one is zero. -/
  seq : Nat
deriving DecidableEq

/-- One run and its entries. -/
structure Run where
  source : RunSource
  /-- Whether the run only showed what it would do. -/
  preview : Bool
  entries : List RunEntry := []
deriving DecidableEq

/-- The run with one more entry, in the next place. -/
def Run.add (r : Run) (entry : Entry) : Run :=
  { r with entries := r.entries ++ [{ entry with seq := r.entries.length }] }

/-- The number of entries that a run has room for, as places are numbers of 32 bits. -/
def maxEntries : Nat := 2 ^ 32

/-- Why the ledger refuses an operation. -/
inductive LedgerError where
  | unknownRun (id : RunId)
  /-- There is no place left for an entry. -/
  | fullRun (id : RunId)
  /-- A run is not there when it ends. -/
  | lostRun (id : RunId)
deriving DecidableEq

def LedgerError.message : LedgerError → String
  | unknownRun id => "unknown run " ++ toString id
  | fullRun id => "run " ++ toString id ++ " has too many entries"
  | lostRun id => "run " ++ toString id ++ " vanished"

/-- All runs, with the last number given. -/
structure Ledger where
  runs : SortedMap RunId Run := ∅
  lastRun : RunId := 0
  /-- No run has a number that was not given yet. -/
  bounded : ∀ id ∈ runs.keys, id ≤ lastRun := by exact fun _ h ↦ nomatch h
deriving DecidableEq

namespace Ledger

def empty : Ledger := {}

def beginRun (l : Ledger) (source : RunSource) (preview : Bool) : RunId × Ledger :=
  let id := l.lastRun + 1
  (id,
    { runs := l.runs.insert id { source, preview }
      lastRun := id
      bounded := fun _ h ↦ (SortedMap.mem_keys_insert h).elim Nat.le_of_eq
        fun h ↦ Nat.le_succ_of_le (l.bounded _ h) })

/-- Adds an entry to a run, in the next place. -/
def record (l : Ledger) (id : RunId) (entry : Entry) : Except LedgerError Ledger :=
  match l.runs.get? id with
  | some run =>
    if run.entries.length < maxEntries then
      .ok { l with
        runs := l.runs.modify id (·.add entry)
        bounded := by simpa using l.bounded }
    else .error (.fullRun id)
  | none => .error (.unknownRun id)

def discard (l : Ledger) (id : RunId) : Except LedgerError Ledger :=
  if l.runs.contains id then
    .ok { l with
      runs := l.runs.erase id
      bounded := fun _ h ↦ l.bounded _ (SortedMap.mem_keys_erase h) }
  else .error (.unknownRun id)

def run? (l : Ledger) (id : RunId) : Option Run := l.runs.get? id

/-- The entries of a run, none if there is no such run. -/
def entries (l : Ledger) (id : RunId) : List RunEntry := ((l.run? id).map Run.entries).getD []

end Ledger

end PlanLedger
