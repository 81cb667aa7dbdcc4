import PlanLedger.Fact.Aggregate
import PlanLedger.Formula.Function
import PlanLedger.Formula.Token

/-!
# Faults of formula texts

What is wrong where a text is no formula. A fault knows the token that was met and the place in the
grammar at which it was met.
-/

namespace PlanLedger.Formula

/-- The words of a case distinction. -/
inductive Keyword where
  | caseWord
  | whenWord
  | thenWord
  | elseWord
  | endWord
deriving DecidableEq

namespace Keyword

def all : List Keyword := [caseWord, whenWord, thenWord, elseWord, endWord]

def text : Keyword → String
  | caseWord => "CASE"
  | whenWord => "WHEN"
  | thenWord => "THEN"
  | elseWord => "ELSE"
  | endWord => "END"

def ofCapitals? (s : String) : Option Keyword := all.find? fun k ↦ k.text == s

end Keyword

/-- A place in the grammar. -/
inductive Place where
  | inExpression
  | inCellReference
  | afterExpression
  | afterAggregate (kind : Aggregate)
  | dimensionName
  | dimensionValue
  | keyFigureReference
  | referenceName
  | expectedSymbol (s : Symbol)
  | expectedKeyword (k : Keyword)
deriving DecidableEq

def Place.describe : Place → String
  | inExpression => "in expression"
  | inCellReference => "in cell reference"
  | afterExpression => "after expression"
  | afterAggregate kind => "after " ++ kind.tag ++ ":"
  | dimensionName => "(expected a dimension name)"
  | dimensionValue => "(expected a dimension value)"
  | keyFigureReference => "(expected '.[KEY_FIGURE]' after dimension filters)"
  | referenceName => "(REF expects a reference data name)"
  | expectedSymbol s => "(expected '" ++ s.text ++ "')"
  | expectedKeyword k => "(expected " ++ k.text ++ ")"

/-- What is wrong at a token. -/
inductive SyntaxFault where
  /-- No token begins there. -/
  | scan (fault : ScanFault)
  /-- The token does not belong there; no token stands for the end. -/
  | unexpected (token : Option Token) (place : Place)
  | unexpectedKeyword (k : Keyword)
  | memberAccess
  | invalidNumber (text : String)
  /-- The value of the combination is asked for outside a filter. -/
  | loopOutsideFilter
  | misplacedText
  | unknownWord (word : String)
  | functionNotAllowed (name : String)
  /-- A name after a dollar sign stands for no value of a dimension. -/
  | notADimensionValue (name : String)
  | keyFigureLoop
  | keyFigureMissing
  | targetMissing
  | equalsMissing
deriving DecidableEq

def SyntaxFault.message : SyntaxFault → String
  | scan fault => fault.message
  | unexpected token place =>
    let what := (token.map Token.describe).getD "end of formula"
    "Unexpected " ++ what ++ " " ++ place.describe
  | unexpectedKeyword k => "Unexpected keyword " ++ k.text
  | memberAccess => "Member access is not allowed"
  | invalidNumber text => "Invalid number '" ++ text ++ "'"
  | loopOutsideFilter => "$LOOP is only valid as a dimension filter value"
  | misplacedText => "String literals are only valid in REF and dimension filters"
  | unknownWord word =>
    "Unknown identifier '" ++ word ++ "' (constants are uppercase symbols)"
  | functionNotAllowed name => "Function '" ++ name ++ "' is not allowed"
  | notADimensionValue name => "'$" ++ name ++ "' is not a dimension value (only $LOOP is)"
  | keyFigureLoop => "The key figure cannot be $LOOP"
  | keyFigureMissing => "Expected a key figure"
  | targetMissing => "Formula must start with a target cell reference"
  | equalsMissing => "Expected '=' after the target"

/-- Why a text is no formula. -/
inductive ParseError where
  /-- A fault at the token that begins at a byte, or at the end of the text. -/
  | fault (offset : Option Nat) (fault : SyntaxFault)
  /-- A call with a wrong number of arguments. -/
  | arity (fault : ArityFault)
deriving DecidableEq

end PlanLedger.Formula
