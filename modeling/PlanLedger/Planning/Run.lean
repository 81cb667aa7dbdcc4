import PlanLedger.Formula.Evaluation
import PlanLedger.Formula.ReferenceValue
import PlanLedger.Planning.Books
import PlanLedger.Planning.CompiledFormula
import PlanLedger.Planning.Naming

/-!
# Running formulas

A run evaluates a compiled formula for each of its combinations and then lists and writes all
results, so no combination sees what another one wrote. It works in a unit of work: if it fails, the
unit is undone and the run is struck from the ledger. A preview evaluates and lists the results in
the ledger, and its unit is undone as well.
-/

namespace PlanLedger

open Formula (Bindings CellRef TargetFault)
open PlanningError (ofFormula ofRegistry ofStore)

/-! ## Targets -/

/-- The session that a run works on, with its number, and the period of the run. -/
structure RunFrame where
  sessionId : SessionId
  session : Session
  period : Option DimId
deriving DecidableEq

def RunFrame.scope (x : RunFrame) : Scope := .ofSession x.sessionId x.period

/-- Puts a value on a dimension of the cell that is assigned. Version and year are those of the
session, and the key figure is named after the filters. -/
def placeOnTarget (x : RunFrame) (name : String) (c : Cell) (p : Dimension × DimId) :
    Except TargetFault Cell :=
  match p.1 with
  | .version => if p.2 = x.session.version then .ok c else .error (.otherVersion name)
  | .year => if p.2 = x.session.year then .ok c else .error (.otherYear name)
  | .keyFigure => .error (.keyFigureFilter name)
  | d => .ok (c.set d p.2)

/-- The cell that a key figure and values on dimensions stand for in a run. -/
def targetCell (x : RunFrame) (name : String) (keyFigure : DimId)
    (pairs : List (Dimension × DimId)) : Except TargetFault Cell := do
  let first (d : Dimension) : Option DimId := (pairs.find? fun p ↦ p.1 == d).map (·.2)
  match first .period <|> x.period, first .orgUnit <|> x.session.orgUnit with
  | none, _ => .error (.noPeriod name)
  | some _, none => .error (.noOrgUnit name)
  | some period, some orgUnit =>
    let start : Cell :=
      { session := x.sessionId, version := x.session.version, year := x.session.year,
        period, orgUnit, keyFigure }
    pairs.foldlM (placeOnTarget x name) start

/-- The cell that a formula assigns for a combination, and its name. -/
def target (r : Registry) (x : RunFrame) (b : Bindings) (ref : CellRef) :
    Except Formula.FormulaError (Cell × String) := do
  let keyFigure ← ref.resolveKeyFigure r b
  let pairs ← Formula.resolvePairs r b ref.filters
  let name := r.keyName keyFigure pairs
  match targetCell x name keyFigure pairs with
  | .ok c => return (c, name)
  | .error fault => .error (.invalidTarget fault)

/-! ## Runs -/

/-- What a formula is to be run on. -/
structure RunRequest where
  session : SessionId
  period : Option String := none
  preview : Bool := false
deriving DecidableEq

/-- What came of a run, as the ledger has it. -/
structure RunReport where
  id : RunId
  source : RunSource
  preview : Bool
  entries : List RunEntry
deriving DecidableEq

namespace Engine

/-- Everything that a run needs to know before it begins. -/
structure RunPlan where
  compiled : CompiledFormula
  frame : RunFrame
  combinations : List Bindings

/-- Prepares a run. -/
def plan (e : Engine) (f : PlanFormula) (request : RunRequest) : Except PlanningError RunPlan := do
  e.options.validate
  let compiled ← e.compile f
  let session ← ofStore (e.store.session request.session)
  let period ← e.resolveOption .period request.period
  let combinations ← ofRegistry (e.registry.combinations compiled.loops)
  return { compiled, combinations, frame := { sessionId := request.session, session, period } }

/-- The value of a formula for a combination. -/
def combinationValue (e : Engine) (s : Store) (f : PlanFormula) (p : RunPlan) (b : Bindings) :
    Except Formula.FormulaError Decimal := do
  let expr := p.compiled.statement.expr
  let references : Formula.ReferenceContext :=
    { store := s, registry := e.registry, catalog := e.catalog,
      version := f.referenceVersion, year := f.referenceYear }
  let expr ← if p.compiled.hasReferences then references.substitute b expr else .ok expr
  let context : Formula.Context :=
    { store := s, registry := e.registry, scope := p.frame.scope, bindings := b }
  expr.evaluateScalar context e.options.scale

/-- The entry of a combination, read from the store as it is when the run begins. -/
def combinationEntry (e : Engine) (s : Store) (f : PlanFormula) (p : RunPlan) (batch : BatchId)
    (b : Bindings) : Except Formula.FormulaError Entry := do
  let (cell, cellName) ← target e.registry p.frame b p.compiled.statement.target
  let newValue ← e.combinationValue s f p b
  return { key := cell.inBatch batch, cellName, oldValue := s.currentValue cell, newValue }

def writeEntry (s : Store) (entry : Entry) : Except StoreError Store :=
  s.update entry.key { value := entry.newValue } fun values ↦
    { values with value := entry.newValue }

/-- Lists an entry and writes its new value, unless it is only shown. -/
def settleEntry (run : RunId) (preview : Bool) (entry : Entry) : Working Unit := do
  Working.record run entry
  unless preview do
    Working.onStore fun s ↦ return ((), ← writeEntry s entry)

/-- The work of a run: the entries of all combinations, and then the listing and writing. -/
def runWork (e : Engine) (f : PlanFormula) (p : RunPlan) (preview : Bool) (run : RunId) :
    Working Unit := do
  let (batch, _) ← Working.onStore (·.ensureBatch p.frame.sessionId)
  let s ← Working.store
  let entries ← ofFormula (p.combinations.mapM (e.combinationEntry s f p batch))
  entries.forM (settleEntry run preview)

/-- The ledger without a run, if it has it. -/
def strike (l : Ledger) (run : RunId) : Ledger :=
  match l.discard run with
  | .ok struck => struck
  | .error _ => l

/-- Does work under a new number of the ledger. If the work fails, the run is struck from the
ledger, and its number is lost. -/
def underRun {α : Type} (e : Engine) (source : RunSource) (preview : Bool)
    (work : RunId → Working α) : Except PlanningError (RunId × α) × Engine :=
  let (run, ledger) := e.ledger.beginRun source preview
  match (Working.inUnit (!preview) (work run)).run ⟨e.store, ledger⟩ with
  | .ok a b => (.ok (run, a), { e with store := b.store, ledger := b.ledger })
  | .error err b => (.error err, { e with store := b.store, ledger := strike b.ledger run })

def runFormula (e : Engine) (f : PlanFormula) (request : RunRequest) :
    Except PlanningError RunReport × Engine :=
  match e.plan f request with
  | .error err => (.error err, e)
  | .ok p =>
    match e.underRun (.formula f.name) request.preview (e.runWork f p request.preview) with
    | (.error err, e) => (.error err, e)
    | (.ok (id, _), e) =>
      match e.ledger.run? id with
      | some run => (.ok { run with id }, e)
      | none => (.error (.ledger (.lostRun id)), e)

end Engine

end PlanLedger
