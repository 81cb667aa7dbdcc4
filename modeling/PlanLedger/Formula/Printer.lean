import PlanLedger.Decimal.Text
import PlanLedger.Formula.Function
import PlanLedger.Formula.Syntax
import PlanLedger.Text.CharClass

/-!
# Writing formulas

Operators are written with parentheses around them, so the text of an expression shows how it
groups. A code is written in quotes if it holds anything but letters, digits and underscores.
-/

namespace PlanLedger.Formula

/-- A text in single quotes, with the quotes within it written twice. -/
def quote (s : String) : String :=
  let doubled := s.toList.flatMap fun c ↦ if c = '\'' then ['\'', '\''] else [c]
  String.ofList ('\'' :: doubled ++ ['\''])

/-- A value on a dimension as it is written without quotes. -/
def DimValue.toText : DimValue → String
  | .code text => text
  | .id n => toString n
  | .loop => "$LOOP"

/-- Whether a code can be written without quotes. -/
def isPlainCode (s : String) : Bool := s.toList.all fun c ↦ Text.isAlphanumeric c || c == '_'

def DimFilter.toText (f : DimFilter) : String :=
  f.dimension.name ++ "=" ++
    match f.value with
    | .code text => if isPlainCode text then text else quote text
    | value => value.toText

def CellRef.toText (r : CellRef) : String :=
  let aggregate := match r.aggregate with
    | some kind => kind.tag ++ ":"
    | none => ""
  let keyFigure := "[" ++ r.keyFigure.toText ++ "]"
  if r.filters.isEmpty && !r.optional then aggregate ++ keyFigure
  else
    aggregate ++ "[" ++ ",".intercalate (r.filters.map DimFilter.toText) ++ "]" ++
      (if r.optional then "?" else "") ++ "." ++ keyFigure

def ReferenceCall.toText (c : ReferenceCall) : String :=
  "REF('" ++ c.name ++ "'" ++ String.join (c.filters.map fun f ↦ ", " ++ f.toText) ++ ")"

/-- The text of a case distinction, whose conditions and values are given as texts. -/
def caseText : List String → String
  | condition :: value :: rest => " WHEN " ++ condition ++ " THEN " ++ value ++ caseText rest
  | [otherwise] => " ELSE " ++ otherwise ++ " END"
  | [] => " END"

mutual

def Expr.toText : Expr → String
  | .number value => value.toText
  | .cell ref => ref.toText
  | .binary op left right =>
    "(" ++ left.toText ++ " " ++ op.sign ++ " " ++ right.toText ++ ")"
  | .negate operand => "-" ++ operand.toText
  | .call function args =>
    let texts := textsOf args
    if function = Function.caseWhen.name then function ++ caseText texts
    else function ++ "(" ++ ", ".intercalate texts ++ ")"
  | .subFormula name => "$" ++ name
  | .constant name => name
  | .reference call => call.toText

def textsOf : List Expr → List String
  | [] => []
  | e :: rest => e.toText :: textsOf rest

end

end PlanLedger.Formula
