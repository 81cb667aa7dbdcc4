import PlanLedger.CommandLine.Command
import PlanLedger.Formula.Printer
import PlanLedger.Json.Reader
import PlanLedger.Workbook.Decode
import PlanLedger.Workbook.Report

/-!
# Answers to commands

A command answers with lines, or with JSON, and notes beside them. Entries and facts are listed in
columns, with amounts of two decimals. A failure is told with its causes and ends with the exit code
1, a wrong command line with 2.
-/

namespace PlanLedger.CommandLine

/-- What is printed as the answer to a command. -/
inductive Answer where
  | lines (ls : List String)
  | json (v : Json)

/-- What a command prints, its notes, and its exit code. -/
structure Output where
  exitCode : Nat := 0
  answer : Answer := .lines []
  notes : List String := []

/-! ## Columns -/

/-- A text with blanks in front of it up to a width. -/
def padLeft (width : Nat) (s : String) : String :=
  String.ofList (List.replicate (width - s.length) ' ') ++ s

/-- A text with blanks after it up to a width. -/
def padRight (width : Nat) (s : String) : String :=
  s ++ String.ofList (List.replicate (width - s.length) ' ')

/-- The count of decimals of printed amounts. -/
def amountPlaces : Nat := 2

def amount (d : Decimal) : String := (d.toPlaces amountPlaces).toText

/-- The line of an entry with its place in the run. -/
def entryLine (e : RunEntry) : String :=
  padLeft 4 (toString e.seq) ++ " " ++ padRight 48 e.cellName ++ " " ++
    padLeft 16 (amount e.oldValue) ++ " -> " ++ padLeft 16 (amount e.newValue)

def entryLines (entries : List RunEntry) : List String := entries.map entryLine

def factLine (r : Registry) (f : Fact) : String :=
  padRight 48 (r.cellName f.cell) ++ " " ++ padLeft 16 (amount f.value) ++ " " ++
    f.values.unit.getD ""

/-! ## Failures -/

/-- A failure: what failed, and the causes from the nearest to the farthest. -/
structure Failure where
  headline : String
  causes : List String := []
  exitCode : Nat := 1
deriving DecidableEq

def linesOf (s : String) : List String :=
  (s.toList.splitOn '\n').map String.ofList

/-- The lines of a cause, where the first has a prefix and the others are indented as far. -/
def causeLines (first : String) (cause : String) : List String :=
  match linesOf cause with
  | line :: rest =>
    (first ++ line) :: rest.map (String.ofList (List.replicate first.length ' ') ++ ·)
  | [] => [first]

/-- The lines of a failure. Several causes are numbered. -/
def Failure.lines (f : Failure) : List String :=
  let causes :=
    match f.causes with
    | [] => []
    | [cause] => ["", "Caused by:"] ++ causeLines "    " cause
    | causes =>
      ["", "Caused by:"] ++
        causes.zipIdx.flatMap fun c ↦ causeLines (padLeft 5 (toString c.2) ++ ": ") c.1
  linesOf ("Error: " ++ f.headline) ++ causes

/-- A failure in planning. A calculation that is broken off has an exit code of its own. -/
def failureOf (headline : String) (e : PlanningError) : Failure :=
  { headline, causes := [e.message],
    exitCode := if e = .formula .outOfRange then 101 else 1 }

/-- The failure of asking something of a workbook. -/
def selectionFailure (e : WorkbookError) : Failure :=
  match e.messages with
  | headline :: causes => { headline, causes }
  | [] => { headline := "" }

/-! ## Commands -/

/-- Reads and loads the workbook in a file with a text. -/
def openWorkbook (path : String) (text : Option String) : Except Failure Loaded :=
  match text with
  | none => .error { headline := "Failed to read '" ++ path ++ "'" }
  | some text =>
    match Json.ofText? text >>= Workbook.ofJson? with
    | none => .error { headline := "Failed to parse workbook '" ++ path ++ "'" }
    | some w =>
      match w.load with
      | .ok l => .ok l
      | .error e =>
        .error { headline := "Failed to load workbook '" ++ path ++ "'", causes := e.messages }

/-- The result of asking something of a loaded workbook. -/
def selecting {α : Type} : Except WorkbookError α → Except Failure α
  | .ok a => .ok a
  | .error e => .error (selectionFailure e)

def runCommand (l : Loaded) (json : Bool) (formula session : String) (period : Option String)
    (preview : Bool) : Except Failure Output := do
  let session ← selecting (l.session session)
  let f ← selecting (l.formula formula)
  match (l.engine.runFormula f { session, period, preview }).1 with
  | .error e => throw (failureOf ("Formula '" ++ formula ++ "' failed") e)
  | .ok report =>
    if json then return { answer := .json report.toJson }
    else
      let note := "Run " ++ toString report.id ++ ": " ++ toString report.entries.length ++
        " cells" ++ if preview then " (preview, nothing written)" else ""
      return { answer := .lines (entryLines report.entries), notes := [note] }

def functionCommand (l : Loaded) (json : Bool) (kind session : String)
    (params : List (String × String)) : Except Failure Output := do
  let session ← selecting (l.session session)
  match PlanningFunction.ofRequest kind (.ofList params) with
  | .error fault => throw { headline := (PlanningError.request fault).message }
  | .ok f =>
    match (l.engine.runFunction f session).1 with
    | .error e => throw (failureOf ("Planning function '" ++ f.kind ++ "' failed") e)
    | .ok outcome =>
      if json then return { answer := .json outcome.toJson }
      else
        let skipped := outcome.errors.map fun e ↦ "Skipped " ++ e.message
        let note := f.kind ++ ": " ++ toString outcome.affected ++ " rows affected, " ++
          toString outcome.errors.length ++ " skipped"
        return { answer := .lines (entryLines outcome.entries), notes := skipped ++ [note] }

/-- Checks a formula and tells what it would do. -/
def checkCommand (l : Loaded) (formula : String) : Except Failure Output := do
  let f ← selecting (l.formula formula)
  let failed := failureOf ("Formula '" ++ formula ++ "' does not compile")
  match l.engine.compile f with
  | .error e => throw (failed e)
  | .ok c =>
    match l.engine.registry.combinations c.loops with
    | .error e => throw { headline := e.message }
    | .ok combinations =>
      let loops := if c.loops.isEmpty then "-" else ", ".intercalate (c.loops.map Dimension.name)
      let lines :=
        [c.statement.target.toText ++ " = " ++ c.statement.expr.toText,
          "Loop dimensions: " ++ loops,
          "Combinations: " ++ toString combinations.length,
          "Reads reference data: " ++ toString c.hasReferences]
      return { answer := .lines lines }

def factsCommand (l : Loaded) (json : Bool) (session : String) : Except Failure Output := do
  let session ← selecting (l.session session)
  let facts := l.engine.store.selectCurrent ∅ (.ofSession session)
  if json then return { answer := .json (.array (facts.map Fact.toJson)) }
  else
    let lines := facts.map (factLine l.engine.registry)
    return { answer := .lines lines, notes := [toString facts.length ++ " facts"] }

/-- Carries out a command on the text of its file, if the file can be read. -/
def Command.execute (c : Command) (text : Option String) : Except Failure Output := do
  let l ← openWorkbook c.workbook text
  match c.action with
  | .run formula session period preview => runCommand l c.json formula session period preview
  | .function kind session params => functionCommand l c.json kind session params
  | .check formula => checkCommand l formula
  | .facts session => factsCommand l c.json session

/-- The output of a command, a failure included. -/
def Command.output (c : Command) (text : Option String) : Output :=
  match c.execute text with
  | .ok o => o
  | .error f => { exitCode := f.exitCode, notes := f.lines }

def UsageError.output (e : UsageError) : Output := { exitCode := 2, notes := e.lines }

end PlanLedger.CommandLine
