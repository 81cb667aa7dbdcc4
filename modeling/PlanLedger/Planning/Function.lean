import PlanLedger.Planning.Error

/-!
# Planning functions

A planning function changes many facts of a session at once: it copies them to another version,
rescales them to totals, converts their units, writes them again in a new batch, or sets them to
zero. A function can be asked for by its name and named parameters.
-/

namespace PlanLedger

/-- A planning function with its parameters. -/
inductive PlanningFunction where
  | copy (toVersion year : String) (period : Option String)
  | distribute (groupBy : List String) (reference : String)
  | convert (targetUnit : String)
  | repost
  | resetSlice (filter : SortedMap String String)
deriving DecidableEq

namespace PlanningFunction

def kind : PlanningFunction → String
  | copy .. => "copy"
  | distribute .. => "distribute"
  | convert _ => "convert"
  | repost => "repost"
  | resetSlice _ => "reset_slice"

/-! ## Requests -/

abbrev Params := SortedMap String String

/-- Checks that all parameters are among those that a function takes. -/
def checkParams (kind : String) (params : Params) (allowed : List String) :
    Except RequestFault Unit :=
  match params.keys.find? fun name ↦ !allowed.contains name with
  | some name => .error (.unknownParameter kind name)
  | none => .ok ()

/-- A parameter that must be there and not be blank. -/
def required (kind : String) (params : Params) (name : String) : Except RequestFault String :=
  match params.get? name with
  | some value =>
    if (Text.trim value.toList).isEmpty then .error (.missingParameter kind name) else .ok value
  | none => .error (.missingParameter kind name)

def splitAtCommas (s : List Char) : List (List Char) :=
  s.foldr
    (fun c parts ↦ if c = ',' then [] :: parts else
      match parts with
      | part :: rest => (c :: part) :: rest
      | [] => [[c]])
    [[]]

/-- The names in a list with commas between them. Blank names do not count. -/
def namesIn (text : String) : List String :=
  (((splitAtCommas text.toList).map Text.trim).filter (!·.isEmpty)).map String.ofList

/-- The function of a name, whatever the case of its letters, with named parameters. -/
def ofRequest (name : String) (params : Params) : Except RequestFault PlanningFunction :=
  let kind := name.toLower
  match kind with
  | "copy" => do
    checkParams kind params ["to_version", "year", "period"]
    let toVersion ← required kind params "to_version"
    let year ← required kind params "year"
    return copy toVersion year (params.get? "period")
  | "distribute" => do
    checkParams kind params ["group_by", "reference"]
    let reference ← required kind params "reference"
    return distribute (((params.get? "group_by").map namesIn).getD []) reference
  | "convert" => do
    checkParams kind params ["target_unit"]
    return convert (← required kind params "target_unit")
  | "repost" => do
    checkParams kind params []
    return repost
  | "reset_slice" => .ok (resetSlice params)
  | "resetslice" => .ok (resetSlice params)
  | _ => .error (.unknownFunction kind)

end PlanningFunction

end PlanLedger
