import PlanLedger.Planning.CompiledFormula

/-!
# Workbooks

A workbook holds all that an engine works on: the values of the dimensions, sessions, facts, a
catalog, formulas and options. It is loaded in this order into a fresh engine. Sessions are named,
and facts name their session.
-/

namespace PlanLedger

/-- A session of a workbook, by codes. -/
structure SessionSpec where
  name : String
  version : String
  year : String
  orgUnit : Option String := none
deriving DecidableEq

/-- A fact of a workbook, by codes. -/
structure FactSpec where
  session : String
  keyFigure : String
  /-- The code on each named dimension. -/
  dimensions : SortedMap String String := ∅
  values : FactValues := {}
deriving DecidableEq

/-- A workbook. -/
structure Workbook where
  /-- The values of each named dimension. -/
  dimensions : SortedMap String (List DimensionValue) := ∅
  sessions : List SessionSpec := []
  facts : List FactSpec := []
  catalog : Formula.Catalog := {}
  formulas : List PlanFormula := []
  options : Options := {}

/-- Why a workbook cannot be loaded, or has not what is asked of it. -/
inductive WorkbookError where
  | value (d : Dimension) (code : String) (e : DimensionError)
  | options (e : PlanningError)
  | catalog (e : PlanningError)
  | sessionTwice (name : String)
  | session (name : String) (e : PlanningError)
  | sessionOfFact (index : Nat) (name : String)
  | cellOfFact (index : Nat) (e : PlanningError)
  | storeFact (index : Nat) (e : PlanningError)
  | noSession (selector : String)
  | noFormula (name : String)
deriving DecidableEq

/-- The text of an error, followed by the texts of its causes. -/
def WorkbookError.messages : WorkbookError → List String
  | value d code e => ["Invalid " ++ d.name ++ " value '" ++ code ++ "'", e.message]
  | options e => ["Invalid options", e.message]
  | catalog e => ["Invalid catalog", e.message]
  | sessionTwice name => ["session '" ++ name ++ "' is defined twice"]
  | session name e => ["Invalid session '" ++ name ++ "'", e.message]
  | sessionOfFact index name =>
    ["fact #" ++ toString index ++ " names unknown session '" ++ name ++ "'"]
  | cellOfFact index e => ["Invalid fact #" ++ toString index, e.message]
  | storeFact index e => ["Failed to load fact #" ++ toString index, e.message]
  | noSession selector => ["no session named '" ++ selector ++ "'"]
  | noFormula name => ["no formula named '" ++ name ++ "'"]

/-- A loaded workbook: its engine, its formulas and the numbers of its sessions. -/
structure Loaded where
  engine : Engine
  formulas : List PlanFormula
  sessions : SortedMap String SessionId := ∅

namespace Workbook

/-! ## Loading -/

/-- Adds a value to a dimension of a workbook. -/
def addValue (d : Dimension) (r : Registry) (v : DimensionValue) : Except WorkbookError Registry :=
  match r.add d v with
  | .ok r => .ok r
  | .error e => .error (.value d v.code e)

def addValues (r : Registry) (named : String × List DimensionValue) :
    Except WorkbookError Registry :=
  named.2.foldlM (addValue (.ofName named.1)) r

def registry (w : Workbook) : Except WorkbookError Registry :=
  w.dimensions.toList.foldlM addValues .initial

def addSession (l : Loaded) (spec : SessionSpec) : Except WorkbookError Loaded :=
  if l.sessions.contains spec.name then .error (.sessionTwice spec.name)
  else match l.engine.createSession spec.name spec.version spec.year spec.orgUnit with
    | .ok ((id, _), engine) =>
      .ok { l with engine, sessions := l.sessions.insert spec.name id }
    | .error e => .error (.session spec.name e)

def addFact (l : Loaded) (numbered : FactSpec × Nat) : Except WorkbookError Loaded := do
  let (spec, index) := numbered
  match l.sessions.get? spec.session with
  | none => .error (.sessionOfFact index spec.session)
  | some session =>
    match l.engine.cell session spec.keyFigure spec.dimensions.toList with
    | .error e => .error (.cellOfFact index e)
    | .ok cell =>
      match l.engine.loadFact cell spec.values with
      | .error e => .error (.storeFact index e)
      | .ok (_, engine) => .ok { l with engine }

/-- The engine of a workbook before sessions and facts are loaded. -/
def start (w : Workbook) : Except WorkbookError Loaded := do
  let registry ← w.registry
  match w.options.validate with
  | .error e => throw (.options e)
  | .ok () =>
    let engine : Engine := { registry, catalog := w.catalog, options := w.options }
    match engine.checkCatalog with
    | .error e => throw (.catalog e)
    | .ok () => return { engine, formulas := w.formulas }

def load (w : Workbook) : Except WorkbookError Loaded := do
  let l ← w.start
  let l ← w.sessions.foldlM addSession l
  w.facts.zipIdx.foldlM addFact l

end Workbook

namespace Loaded

/-- The session of a name, or of the digits of its number. -/
def session (l : Loaded) (selector : String) : Except WorkbookError SessionId :=
  match l.sessions.get? selector with
  | some id => .ok id
  | none =>
    match Text.readNat? (2 ^ 64) selector.toList with
    | some id => if id ∈ l.sessions.values then .ok id else .error (.noSession selector)
    | none => .error (.noSession selector)

def formula (l : Loaded) (name : String) : Except WorkbookError PlanFormula :=
  match l.formulas.find? fun f ↦ f.name == name with
  | some f => .ok f
  | none => .error (.noFormula name)

end Loaded

end PlanLedger
