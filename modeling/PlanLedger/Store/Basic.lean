import PlanLedger.Fact.Basic

/-!
# The fact store

The store holds facts by their keys, sessions and batches by their numbers, and the last number
given to each of the three. A unit of work saves the whole contents when it begins; a roll-back
brings the saved contents back, and a commit forgets them. A refused operation leaves the store
as it was.
-/

namespace PlanLedger

/-- Why the store refuses an operation. -/
inductive StoreError where
  | unknownSession (id : SessionId)
  | unknownBatch (id : BatchId)
  /-- A unit of work is open already. -/
  | unitActive
  /-- There is no unit of work to end. -/
  | noUnit
  /-- The batch of a key belongs to another session than its cell. -/
  | foreignBatch (batch : BatchId) (owner session : SessionId)
  /-- The number of a session is taken. -/
  | sessionExists (id : SessionId)
deriving DecidableEq

def StoreError.message : StoreError → String
  | unknownSession id => "Unknown session: " ++ toString id
  | unknownBatch id => "Unknown batch: " ++ toString id
  | unitActive => "A unit of work is already active"
  | noUnit => "No active unit of work"
  | foreignBatch batch owner session =>
    "Invalid fact key: batch " ++ toString batch ++ " belongs to session " ++ toString owner ++
      ", not " ++ toString session
  | sessionExists id => "session " ++ toString id ++ " already exists"

/-- A fact without its key. -/
structure Row where
  id : FactId
  values : FactValues
deriving DecidableEq

def Row.toFact (r : Row) (key : FactKey) : Fact := ⟨r.id, key, r.values⟩

/-- What is stored, with the last numbers given. -/
structure Contents where
  facts : SortedMap FactKey Row := ∅
  sessions : SortedMap SessionId Session := ∅
  batches : SortedMap BatchId Batch := ∅
  lastFact : FactId := 0
  lastSession : SessionId := 0
  lastBatch : BatchId := 0
deriving DecidableEq

/-- A fact store, with the contents saved by the unit of work that is open. -/
structure Store extends Contents where
  saved : Option Contents := none
deriving DecidableEq

namespace Store

def empty : Store := {}

instance : EmptyCollection Store := ⟨empty⟩

instance : Inhabited Store := ⟨empty⟩

/-! ## Sessions -/

def session (s : Store) (id : SessionId) : Except StoreError Session :=
  match s.sessions.get? id with
  | some session => .ok session
  | none => .error (.unknownSession id)

/-- The oldest session of a version and year. -/
def findSession? (s : Store) (version year : DimId) : Option (SessionId × Session) :=
  s.sessions.toList.find? fun e ↦ e.2.version == version && e.2.year == year

def createSession (s : Store) (session : Session) : SessionId × Store :=
  let id := s.lastSession + 1
  (id, { s with sessions := s.sessions.insert id session, lastSession := id })

/-- Adds a session under a number of its own, which must be free. -/
def insertSession (s : Store) (id : SessionId) (session : Session) : Except StoreError Store :=
  if s.sessions.contains id then .error (.sessionExists id)
  else .ok { s with
    sessions := s.sessions.insert id session
    lastSession := Nat.max s.lastSession id }

/-- The session of a version and year; a nameless one is added if there is none. -/
def findOrCreateSession (s : Store) (version year : DimId) : (SessionId × Session) × Store :=
  match s.findSession? version year with
  | some found => (found, s)
  | none =>
    let session : Session := { version, year }
    let (id, s) := s.createSession session
    ((id, session), s)

/-! ## Batches -/

/-- The batches of a session from the oldest to the newest. -/
def batchesOf (s : Store) (session : SessionId) : List (BatchId × Batch) :=
  s.batches.toList.filter fun e ↦ e.2.session == session

/-- The newest batch of a session, if it has one. -/
def latestBatch (s : Store) (session : SessionId) :
    Except StoreError (Option (BatchId × Batch)) := do
  let _ ← s.session session
  return (s.batchesOf session).getLast?

def createBatch (s : Store) (batch : Batch) : Except StoreError (BatchId × Store) := do
  let _ ← s.session batch.session
  let id := s.lastBatch + 1
  return (id, { s with batches := s.batches.insert id batch, lastBatch := id })

/-- The newest batch of a session; an empty one is added if it has none. -/
def ensureBatch (s : Store) (session : SessionId) :
    Except StoreError ((BatchId × Batch) × Store) := do
  match ← s.latestBatch session with
  | some found => return (found, s)
  | none =>
    let batch : Batch := { session, action := .delta }
    let (id, s) ← s.createBatch batch
    return ((id, batch), s)

/-! ## Facts -/

def allFacts (s : Store) : List Fact := s.facts.toList.map fun e ↦ e.2.toFact e.1

def find? (s : Store) (key : FactKey) : Option Fact := (s.facts.get? key).map (·.toFact key)

/-- The facts of a batch in the order of their cells. -/
def batchFacts (s : Store) (batch : BatchId) : Except StoreError (List Fact) :=
  if s.batches.contains batch then .ok (s.allFacts.filter fun f ↦ f.key.batch == batch)
  else .error (.unknownBatch batch)

/-- Whether the batch of a key exists and belongs to the session of its cell. -/
def checkKey (s : Store) (key : FactKey) : Except StoreError Unit :=
  match s.batches.get? key.batch with
  | none => .error (.unknownBatch key.batch)
  | some batch =>
    if batch.session == key.session then .ok ()
    else .error (.foreignBatch key.batch batch.session key.session)

/-- The outcome of asking for the row of a key: the row, whether it is new, and the store with
it. -/
structure Upserted where
  row : Row
  created : Bool
  store : Store

/-- The row of a key, which is added with the given values if the key has none. -/
def upsert (s : Store) (key : FactKey) (defaults : FactValues) : Except StoreError Upserted := do
  s.checkKey key
  match s.facts.get? key with
  | some row => return ⟨row, false, s⟩
  | none =>
    let row : Row := ⟨s.lastFact + 1, defaults⟩
    return ⟨row, true, { s with facts := s.facts.insert key row, lastFact := row.id }⟩

/-- Gives new values to the row of a key, if the key has one. -/
def assign (s : Store) (key : FactKey) (values : FactValues) : Store :=
  match s.facts.get? key with
  | some row => { s with facts := s.facts.insert key { row with values } }
  | none => s

/-- Changes the values of the row of a key, which is added with the given values first if the key
has none. -/
def update (s : Store) (key : FactKey) (defaults : FactValues) (f : FactValues → FactValues) :
    Except StoreError Store := do
  let u ← s.upsert key defaults
  return u.store.assign key (f u.row.values)

/-- Stores values under a key, in the row that is there or in a new one. -/
def put (s : Store) (key : FactKey) (values : FactValues) : Except StoreError (FactId × Store) := do
  let u ← s.upsert key values
  return (u.row.id, u.store.assign key values)

/-! ## Units of work -/

def inUnit (s : Store) : Bool := s.saved.isSome

def beginUnit (s : Store) : Except StoreError Store :=
  match s.saved with
  | some _ => .error .unitActive
  | none => .ok { s with saved := some s.toContents }

/-- Ends the unit of work and keeps what was done in it. -/
def commitUnit (s : Store) : Except StoreError Store :=
  match s.saved with
  | some _ => .ok { s with saved := none }
  | none => .error .noUnit

/-- Ends the unit of work and undoes what was done in it. -/
def rollbackUnit (s : Store) : Except StoreError Store :=
  match s.saved with
  | some contents => .ok { toContents := contents, saved := none }
  | none => .error .noUnit

/-- Undoes the unit of work that was left open, if there is one. -/
def dropUnit (s : Store) : Store :=
  match s.rollbackUnit with
  | .ok ended => ended
  | .error _ => s

end Store

end PlanLedger
