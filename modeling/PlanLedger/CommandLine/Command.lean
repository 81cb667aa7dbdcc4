import PlanLedger.CommandLine.Arguments
import PlanLedger.Text.CharClass

/-!
# Commands

The four commands on a workbook: running a formula, running a planning function, checking a formula,
and listing the facts of a session.
-/

namespace PlanLedger.CommandLine

/-- What is asked of a workbook. -/
inductive Action where
  | run (formula session : String) (period : Option String) (preview : Bool)
  | function (kind session : String) (params : List (String × String))
  | check (formula : String)
  | facts (session : String)
deriving DecidableEq

/-- A command: the file of a workbook, what is asked of it, and whether the answer is JSON. -/
structure Command where
  workbook : String
  action : Action
  json : Bool
deriving DecidableEq

/-! ## Options -/

/-- Asks for more notes each time it is given. -/
def verboseOption : OptionSpec := { long := "verbose", letter := some 'v', repeatable := true }

def jsonOption : OptionSpec := { long := "json" }

def formulaOption : OptionSpec := { long := "formula", letter := some 'f', value := some "FORMULA" }

def sessionOption : OptionSpec := { long := "session", letter := some 's', value := some "SESSION" }

def periodOption : OptionSpec := { long := "period", letter := some 'p', value := some "PERIOD" }

def previewOption : OptionSpec := { long := "preview" }

def kindOption : OptionSpec := { long := "kind", letter := some 'k', value := some "KIND" }

/-- One parameter of a planning function, as `KEY=VALUE`. -/
def paramOption : OptionSpec :=
  { long := "param", letter := some 'P', value := some "PARAMS", repeatable := true }

def commonOptions : List OptionSpec := [verboseOption, jsonOption]

/-- A kind of command: its options, and those that must be given. -/
structure CommandSpec where
  name : String
  required : List OptionSpec
  optional : List OptionSpec
deriving DecidableEq

def commandSpecs : List CommandSpec :=
  [{ name := "run", required := [formulaOption, sessionOption],
     optional := [periodOption, previewOption] },
    { name := "function", required := [kindOption, sessionOption], optional := [paramOption] },
    { name := "check", required := [formulaOption], optional := [] },
    { name := "facts", required := [sessionOption], optional := [] }]

/-! ## Reading a command -/

/-- A parameter before and after its first equals sign, without blanks around them. -/
def readParameter (text : String) : Except UsageError (String × String) :=
  match splitAtEquals text.toList with
  | (key, some value) => .ok (.ofList (Text.trim key), .ofList (Text.trim value))
  | (_, none) => .error (.invalidParameter paramOption text)

/-- What a command asks for with the options found. The required ones have been found. -/
def actionOf (name : String) (f : Found) : Except UsageError Action := do
  let value (o : OptionSpec) : String := (f.value? o.long).getD ""
  match name with
  | "run" =>
    return .run (value formulaOption) (value sessionOption) (f.value? periodOption.long)
      (f.has previewOption.long)
  | "function" =>
    let params ← (f.values paramOption.long).mapM readParameter
    return .function (value kindOption) (value sessionOption) params
  | "check" => return .check (value formulaOption)
  | _ => return .facts (value sessionOption)

/-- Reads the arguments after the name of a command. -/
def readCommand (spec : CommandSpec) (json : Bool) (args : List String) :
    Except UsageError Command := do
  let f ← readArguments (spec.required ++ spec.optional ++ commonOptions) 1 {} args
  let action ← actionOf spec.name f
  let missing := (spec.required.filter fun o ↦ !f.has o.long).map OptionSpec.usage
  match f.operands, missing with
  | workbook :: _, [] => return { workbook, action, json := json || f.has jsonOption.long }
  | [], missing => throw (.missing (missing ++ ["<WORKBOOK>"]))
  | _, missing => throw (.missing missing)

/-- Reads the options before the name of a command, the name and its arguments. -/
def Command.ofArguments (args : List String) : Except UsageError Command := do
  let before := args.takeWhile isOption
  let f ← readArguments commonOptions 0 {} before
  match args.dropWhile isOption with
  | [] => throw .noCommand
  | name :: rest =>
    match commandSpecs.find? fun spec ↦ spec.name == name with
    | none => throw (.unknownCommand name)
    | some spec => readCommand spec (f.has jsonOption.long) rest

end PlanLedger.CommandLine
