import PlanLedger.Formula.CallGraph
import PlanLedger.Planning.Error
import PlanLedger.Store.Reading

/-!
# The planning engine

The engine holds a store, a ledger of runs, the registry of dimensions, the catalog of what formulas
may use, and its options. Facts are loaded into the newest batch of their session.
-/

namespace PlanLedger

open PlanningError (ofFormula ofRegistry ofStore)

/-- How the engine calculates. -/
structure Options where
  /-- The count of decimals of results. -/
  scale : Nat := 4
  /-- The depth to which the names of sub-formulas are followed. -/
  maxExpansionDepth : Nat := 32
deriving DecidableEq

/-- Checks that options are within their limits. -/
def Options.validate (o : Options) : Except PlanningError Unit :=
  if maxScale < o.scale then .error (.request (.scaleTooLarge o.scale))
  else if o.maxExpansionDepth = 0 then .error (.request .noExpansion)
  else .ok ()

/-- A planning engine. -/
structure Engine where
  store : Store := ∅
  ledger : Ledger := .empty
  registry : Registry := .initial
  catalog : Formula.Catalog := {}
  options : Options := {}
deriving DecidableEq

namespace Engine

def checkCatalog (e : Engine) : Except PlanningError Unit := ofFormula e.catalog.check

/-- The number of the value that a text stands for on a dimension. -/
def resolve (e : Engine) (d : Dimension) (text : String) : Except PlanningError DimId :=
  ofRegistry (e.registry.resolve d text)

/-- The number of the value that a text stands for, if there is a text. -/
def resolveOption (e : Engine) (d : Dimension) : Option String → Except PlanningError (Option DimId)
  | some text => return some (← e.resolve d text)
  | none => .ok none

/-! ## Loading -/

/-- Adds a session whose version, year and organisational unit are given by codes. -/
def createSession (e : Engine) (name version year : String) (orgUnit : Option String) :
    Except PlanningError ((SessionId × Session) × Engine) := do
  let version ← e.resolve .version version
  let year ← e.resolve .year year
  let orgUnit ← e.resolveOption .orgUnit orgUnit
  let session : Session := { name, version, year, orgUnit }
  let (id, store) := e.store.createSession session
  return ((id, session), { e with store })

/-- The parts of a cell that are named one by one. -/
structure CellParts where
  period : Option DimId := none
  orgUnit : Option DimId := none
  service : Option DimId := none
  account : Option DimId := none
  extra : SortedMap String DimId := ∅

/-- The parts with a value put on a dimension, unless the session or the key figure fixes it. -/
def CellParts.set (p : CellParts) (d : Dimension) (id : DimId) : Except PlanningError CellParts :=
  match d with
  | .period => .ok { p with period := some id }
  | .orgUnit => .ok { p with orgUnit := some id }
  | .service => .ok { p with service := some id }
  | .account => .ok { p with account := some id }
  | .extra name => .ok { p with extra := p.extra.insert name id }
  | d => .error (.request (.fixedDimension d))

/-- The parts with the value of a code put on a named dimension. -/
def setPart (e : Engine) (p : CellParts) (named : String × String) :
    Except PlanningError CellParts := do
  let d ← ofRegistry (e.registry.dimension named.1)
  p.set d (← e.resolve d named.2)

/-- The cell of a session and a key figure with codes on named dimensions. The session gives the
organisational unit if no code does. -/
def cell (e : Engine) (session : SessionId) (keyFigure : String) (dims : List (String × String)) :
    Except PlanningError Cell := do
  let s ← ofStore (e.store.session session)
  let p ← dims.foldlM e.setPart { orgUnit := s.orgUnit }
  match p.period, p.orgUnit with
  | none, _ => .error (.request .cellWithoutPeriod)
  | some _, none => .error (.request .cellWithoutOrgUnit)
  | some period, some orgUnit =>
    let keyFigure ← e.resolve .keyFigure keyFigure
    return { p with session, version := s.version, year := s.year, period, orgUnit, keyFigure }

/-- Stores values in a cell, in the newest batch of its session. -/
def loadFact (e : Engine) (c : Cell) (values : FactValues) :
    Except PlanningError (FactId × Engine) := do
  let ((batch, _), store) ← ofStore (e.store.ensureBatch c.session)
  let (id, store) ← ofStore (store.put (c.inBatch batch) values)
  return (id, { e with store })

end Engine

end PlanLedger
