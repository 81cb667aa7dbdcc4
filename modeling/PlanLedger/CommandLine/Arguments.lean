/-!
# Arguments of a command line

Options have a long name and may have a letter; some take a value. A value stands after the option,
or in the same argument after an equals sign, or directly after the letter. Letters of options
without values may share one argument. After `--` nothing is an option. All other arguments are
operands.
-/

namespace PlanLedger.CommandLine

/-- An option that a command takes. -/
structure OptionSpec where
  long : String
  letter : Option Char := none
  /-- The word for the value in messages, if the option takes one. -/
  value : Option String := none
  /-- Whether the option may be given more than once. -/
  repeatable : Bool := false
deriving DecidableEq

def OptionSpec.usage (o : OptionSpec) : String :=
  match o.value with
  | some word => "--" ++ o.long ++ " <" ++ word ++ ">"
  | none => "--" ++ o.long

/-- What is wrong with a command line. -/
inductive UsageError where
  | noCommand
  | unknownCommand (name : String)
  | unexpectedArgument (text : String)
  | valueMissing (o : OptionSpec)
  | unexpectedValue (o : OptionSpec) (value : String)
  | givenTwice (o : OptionSpec)
  | invalidParameter (o : OptionSpec) (text : String)
  | missing (names : List String)
deriving DecidableEq

/-- The first line of the text of an error. -/
def UsageError.headline : UsageError → String
  | noCommand => "Planning formula and planning function runner"
  | unknownCommand name => "error: unrecognized subcommand '" ++ name ++ "'"
  | unexpectedArgument text => "error: unexpected argument '" ++ text ++ "' found"
  | valueMissing o => "error: a value is required for '" ++ o.usage ++ "' but none was supplied"
  | unexpectedValue o value =>
    "error: unexpected value '" ++ value ++ "' for '" ++ o.usage ++
      "' found; no more were expected"
  | givenTwice o => "error: the argument '" ++ o.usage ++ "' cannot be used multiple times"
  | invalidParameter o text =>
    "error: invalid value '" ++ text ++ "' for '" ++ o.usage ++ "': expected key=value, got '" ++
      text ++ "'"
  | missing _ => "error: the following required arguments were not provided:"

def UsageError.lines (e : UsageError) : List String :=
  match e with
  | missing names => e.headline :: names.map ("  " ++ ·)
  | _ => [e.headline]

/-- The options and operands found so far. -/
structure Found where
  /-- Each option that was given, by its long name, with its value. -/
  options : List (String × String) := []
  operands : List String := []
deriving DecidableEq

namespace Found

def add (f : Found) (o : OptionSpec) (value : String) : Except UsageError Found :=
  if !o.repeatable && f.options.any fun p ↦ p.1 == o.long then .error (.givenTwice o)
  else .ok { f with options := f.options ++ [(o.long, value)] }

/-- The value of the first option with a long name. -/
def value? (f : Found) (long : String) : Option String :=
  (f.options.find? fun p ↦ p.1 == long).map (·.2)

/-- The values of all options with a long name. -/
def values (f : Found) (long : String) : List String :=
  (f.options.filter fun p ↦ p.1 == long).map (·.2)

def has (f : Found) (long : String) : Bool := (f.value? long).isSome

end Found

/-! ## Options within one argument -/

/-- What an argument with options asks for: nothing more, or the value of an option in the next
argument. -/
inductive Pending where
  | done (f : Found)
  | needsValue (f : Found) (o : OptionSpec)

/-- The text before the first equals sign, and the text after it if there is one. -/
def splitAtEquals (s : List Char) : List Char × Option (List Char) :=
  match s.dropWhile (· != '=') with
  | _ :: value => (s.takeWhile (· != '='), some value)
  | [] => (s, none)

/-- Reads a long option after its two hyphens. -/
def readLong (specs : List OptionSpec) (f : Found) (s : List Char) : Except UsageError Pending :=
  let (name, value) := splitAtEquals s
  match specs.find? fun o ↦ o.long == String.ofList name with
  | none => .error (.unexpectedArgument ("--" ++ String.ofList name))
  | some o =>
    match o.value, value with
    | some _, some v => return .done (← f.add o (.ofList v))
    | some _, none => .ok (.needsValue f o)
    | none, some v => .error (.unexpectedValue o (.ofList v))
    | none, none => return .done (← f.add o "")

/-- Reads the letters of options after a hyphen. -/
def readLetters (specs : List OptionSpec) (f : Found) : List Char → Except UsageError Pending
  | [] => .ok (.done f)
  | c :: rest =>
    match specs.find? fun o ↦ o.letter == some c with
    | none => .error (.unexpectedArgument ("-" ++ String.singleton c))
    | some o =>
      match o.value, rest with
      | some _, [] => .ok (.needsValue f o)
      | some _, '=' :: v => return .done (← f.add o (.ofList v))
      | some _, v => return .done (← f.add o (.ofList v))
      | none, _ => do readLetters specs (← f.add o "") rest

/-- Whether an argument looks like an option. -/
def isOption (arg : String) : Bool :=
  match arg.toList with
  | '-' :: _ :: _ => true
  | _ => false

/-- Reads an argument that looks like an option. -/
def readOption (specs : List OptionSpec) (f : Found) (arg : String) : Except UsageError Pending :=
  match arg.toList with
  | '-' :: '-' :: s => readLong specs f s
  | s => readLetters specs f s.tail

/-- The error where an option stands in place of the value of the option `o`. An argument that is no
option of the command is reported rather than the missing value. -/
def valueError (specs : List OptionSpec) (f : Found) (o : OptionSpec) (arg : String) : UsageError :=
  if arg = "--" then .valueMissing o
  else match readOption specs f arg with
    | .error (.unexpectedArgument text) => .unexpectedArgument text
    | .error (.unexpectedValue other value) => .unexpectedValue other value
    | _ => .valueMissing o

/-! ## All arguments -/

/-- Reads the arguments of a command that takes some options and a number of operands. -/
def readArguments (specs : List OptionSpec) (operands : Nat) (f : Found) :
    List String → Except UsageError Found
  | [] => .ok f
  | arg :: rest =>
    if arg = "--" then
      match (f.operands ++ rest).drop operands with
      | extra :: _ => .error (.unexpectedArgument extra)
      | [] => .ok { f with operands := f.operands ++ rest }
    else if isOption arg then do
      match ← readOption specs f arg, rest with
      | .done f, rest => readArguments specs operands f rest
      | .needsValue _ o, [] => .error (.valueMissing o)
      | .needsValue f o, value :: rest =>
        if isOption value then .error (valueError specs f o value)
        else do readArguments specs operands (← f.add o value) rest
    else if f.operands.length < operands then
      readArguments specs operands { f with operands := f.operands ++ [arg] } rest
    else .error (.unexpectedArgument arg)

end PlanLedger.CommandLine
