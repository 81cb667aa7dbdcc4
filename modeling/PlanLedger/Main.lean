import PlanLedger.CommandLine.Output
import PlanLedger.Json.Printer

/-!
# The command line

Reads the arguments and the file of the workbook, and prints what the command answers.
-/

open PlanLedger PlanLedger.CommandLine

def fileText? (path : String) : IO (Option String) := do
  try
    return some (← IO.FS.readFile path)
  catch _ =>
    return none

def printOutput (o : Output) : IO UInt32 := do
  match o.answer with
  | .lines ls => for l in ls do IO.println l
  | .json v => IO.println v.pretty
  for l in o.notes do
    IO.eprintln l
  return UInt32.ofNat o.exitCode

/-- Carries out the command that the arguments ask for. -/
def main (args : List String) : IO UInt32 := do
  match Command.ofArguments args with
  | .error e => printOutput e.output
  | .ok c => printOutput (c.output (← fileText? c.workbook))
