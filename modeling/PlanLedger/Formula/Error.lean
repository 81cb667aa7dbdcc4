import PlanLedger.Decimal.Text
import PlanLedger.Dimension.Registry
import PlanLedger.Formula.Fault
import PlanLedger.Formula.Syntax

/-!
# What can go wrong with a formula

A formula may not be read, name what does not exist, be expanded without end, assign to a cell that
it must not assign to, or calculate what cannot be calculated.
-/

namespace PlanLedger.Formula

/-- A calculation without a result. -/
inductive EvaluationFault where
  /-- A truth value stands where a number is needed. -/
  | expectedNumber (actual : Bool)
  /-- Truth values have no order. -/
  | unorderedBooleans (op : Comparison)
  | overflow (left : Decimal) (op : Arithmetic) (right : Decimal)
  | divisionByZero
  | zeroToNegativePower (base exponent : Decimal)
  /-- A negative number has no power with a fractional exponent. -/
  | powerDomain (base exponent : Decimal)
  | missingArgument (f : EagerFunction)
  | noArguments (f : EagerFunction)
  | digitsNotWhole
  | digitsOutOfRange
  /-- A truth value is the result of a formula. -/
  | booleanResult (actual : Bool)
deriving DecidableEq

def EvaluationFault.message : EvaluationFault → String
  | expectedNumber actual => "type mismatch: expected a number, got boolean " ++ toString actual
  | unorderedBooleans op => "type mismatch: cannot order booleans with '" ++ op.sign ++ "'"
  | overflow left op right =>
    "arithmetic overflow in " ++ left.toText ++ " " ++ op.sign ++ " " ++ right.toText
  | divisionByZero => "division by zero"
  | zeroToNegativePower base exponent =>
    "zero raised to a negative power in " ++ base.toText ++ " ^ " ++ exponent.toText
  | powerDomain base exponent =>
    "exponent outside the domain of ^ in " ++ base.toText ++ " ^ " ++ exponent.toText
  | missingArgument f => f.name ++ " is missing an argument"
  | noArguments f => f.name ++ " needs at least one argument"
  | digitsNotWhole => "ROUND digits must be a whole number"
  | digitsOutOfRange => "ROUND digits out of range"
  | booleanResult actual => "formula result must be a number, got boolean " ++ toString actual

/-- An expression that has no value of its own. -/
inductive Unsupported where
  | loopKeyFigure
  | subFormula (name : String)
  | constant (name : String)
  | reference (name : String)
  | function (name : String)
deriving DecidableEq

def Unsupported.describe : Unsupported → String
  | loopKeyFigure => "$LOOP as key figure"
  | subFormula name => "unexpanded sub-formula $" ++ name
  | constant name => "unsubstituted constant " ++ name
  | reference name => "unsubstituted REF('" ++ name ++ "')"
  | function name => "function " ++ name

/-- A cell that a formula must not assign to. The cell is given by its name. -/
inductive TargetFault where
  | aggregate (kind : Aggregate)
  | noPeriod (cell : String)
  | noOrgUnit (cell : String)
  | otherVersion (cell : String)
  | otherYear (cell : String)
  | keyFigureFilter (cell : String)
deriving DecidableEq

def TargetFault.message : TargetFault → String
  | aggregate kind => "cannot assign to a " ++ kind.tag ++ " aggregate"
  | noPeriod cell => cell ++ ": no Period in the target or the run request"
  | noOrgUnit cell => cell ++ ": no OrgUnit in the target and the session has no default"
  | otherVersion cell => cell ++ ": target version differs from the session's"
  | otherYear cell => cell ++ ": target year differs from the session's"
  | keyFigureFilter cell => cell ++ ": key figure belongs after the filters"

/-- What can go wrong with a formula. -/
inductive FormulaError where
  /-- The text of a formula, or of the sub-formula with a name, is wrong at a byte. -/
  | parse (offset : Nat) (subFormula : Option String) (fault : SyntaxFault)
  | arity (fault : ArityFault)
  /-- A sub-formula uses itself: the names from it back to it. -/
  | cyclicExpansion (chain : List String)
  | expansionTooDeep (limit : Nat) (chain : List String)
  | unknownConstant (name : String)
  | unknownSubFormula (name : String)
  | unknownReference (name : String)
  | dimension (e : DimensionError)
  /-- The value of the current combination is asked for on a dimension it does not have. -/
  | unboundLoop (dimension : String)
  | unsupported (what : Unsupported)
  | evaluation (fault : EvaluationFault)
  | invalidTarget (fault : TargetFault)
  /-- An aggregate or a rounding left the range of decimal numbers. The calculation is broken off
  without a report. -/
  | outOfRange
deriving DecidableEq

def FormulaError.message : FormulaError → String
  | parse offset subFormula fault =>
    let place := match subFormula with
      | some name => "in sub-formula $" ++ name ++ ": "
      | none => ""
    "Parse error at offset " ++ toString offset ++ ": " ++ place ++ fault.message
  | arity fault => fault.message
  | cyclicExpansion chain => "Cyclic sub-formula expansion: " ++ " -> ".intercalate chain
  | expansionTooDeep limit chain =>
    "Sub-formula expansion exceeds " ++ toString limit ++ " levels: " ++ " -> ".intercalate chain
  | unknownConstant name => "Unknown constant: " ++ name
  | unknownSubFormula name => "Unknown sub-formula: $" ++ name
  | unknownReference name => "Unknown reference data: " ++ name
  | dimension e => e.message
  | unboundLoop name => "$LOOP used for dimension " ++ name ++ ", which is not a loop dimension"
  | unsupported what => "Unsupported expression: " ++ what.describe
  | evaluation fault => "Evaluation error: " ++ fault.message
  | invalidTarget fault => "Invalid target: " ++ fault.message
  | outOfRange => "Arithmetic out of range"

/-- The result of working on dimensions, as part of working on a formula. -/
def ofRegistry {α : Type} : Except DimensionError α → Except FormulaError α
  | .ok a => .ok a
  | .error e => .error (.dimension e)

/-- The result of a calculation, as part of working on a formula. -/
def ofCalculation {α : Type} : Except EvaluationFault α → Except FormulaError α
  | .ok a => .ok a
  | .error e => .error (.evaluation e)

end PlanLedger.Formula
