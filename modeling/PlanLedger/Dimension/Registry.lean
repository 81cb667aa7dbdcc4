import PlanLedger.Dimension.MasterList

/-!
# The registry of dimensions

The registry holds the master list of every known dimension. The dimensions that are always there
start with empty lists; an extra dimension becomes known with its first value.
-/

namespace PlanLedger

/-- What is wrong with a dimension or one of its values. -/
inductive DimensionError where
  /-- The dimension has no master list. -/
  | unknownDimension (name : String)
  /-- The master list has no such value. -/
  | unknownValue (dimension : String) (value : String)
  /-- The code is taken. -/
  | duplicateCode (dimension : String) (code : String)
deriving DecidableEq

def DimensionError.message : DimensionError → String
  | unknownDimension name => "Unknown dimension: " ++ name
  | unknownValue dimension value =>
    "Unknown value '" ++ value ++ "' for dimension " ++ dimension
  | duplicateCode dimension code =>
    "Duplicate code '" ++ code ++ "' in dimension " ++ dimension

/-- The master lists of all known dimensions. -/
structure Registry where
  lists : SortedMap Dimension MasterList
deriving DecidableEq

namespace Registry

/-- The registry of a fresh start: the dimensions that are always there, without values. -/
def initial : Registry := ⟨.ofList (Dimension.builtin.map (·, {}))⟩

instance : Inhabited Registry := ⟨initial⟩

def dimensions (r : Registry) : List Dimension := r.lists.keys

def list (r : Registry) (d : Dimension) : Except DimensionError MasterList :=
  match r.lists.get? d with
  | some m => .ok m
  | none => .error (.unknownDimension d.name)

/-- The known dimension that a name stands for. -/
def dimension (r : Registry) (name : String) : Except DimensionError Dimension :=
  if r.lists.contains (.ofName name) then .ok (.ofName name)
  else .error (.unknownDimension name)

/-! ## Adding values -/

def registerExtra (r : Registry) (name : String) : Registry :=
  if r.lists.contains (.extra name) then r else ⟨r.lists.insert (.extra name) {}⟩

/-- Makes a dimension known if it is an extra one. -/
def register (r : Registry) : Dimension → Registry
  | .extra name => r.registerExtra name
  | _ => r

/-- Adds a value to the master list of a dimension, which becomes known by it. A refused value
leaves the registry as it was. -/
def add (r : Registry) (d : Dimension) (v : DimensionValue) : Except DimensionError Registry := do
  let r := r.register d
  match (← r.list d).insert? v with
  | some m => .ok ⟨r.lists.insert d m⟩
  | none => .error (.duplicateCode d.name v.code)

/-! ## Finding values -/

def idOfCode (r : Registry) (d : Dimension) (code : String) : Except DimensionError DimId := do
  match (← r.list d).idOfCode? code with
  | some id => .ok id
  | none => .error (.unknownValue d.name code)

def value (r : Registry) (d : Dimension) (id : DimId) : Except DimensionError DimensionValue := do
  match (← r.list d).value? id with
  | some v => .ok v
  | none => .error (.unknownValue d.name (toString id))

/-- The number that a text stands for, a code or digits. Where the digits name no value, the
error repeats the number they stand for. -/
def resolve (r : Registry) (d : Dimension) (text : String) : Except DimensionError DimId := do
  match (← r.list d).idOfLiteral? text with
  | some id => .ok id
  | none =>
    let named := ((Text.readNat? (2 ^ 32) text.toList).map toString).getD text
    .error (.unknownValue d.name named)

/-- The numbers of all values of a dimension in the order of their codes. -/
def ids (r : Registry) (d : Dimension) : Except DimensionError (List DimId) :=
  return (← r.list d).ids

/-- The code of a value, or the digits of its number where it is not known. -/
def codeOrId (r : Registry) (d : Dimension) (id : DimId) : String :=
  match r.lists.get? d with
  | some m => m.codeOrId id
  | none => toString id

end Registry

end PlanLedger
