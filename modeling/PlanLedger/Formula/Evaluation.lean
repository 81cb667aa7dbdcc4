import PlanLedger.Formula.Selection
import PlanLedger.Formula.Value
import PlanLedger.Store.Reading

/-!
# Evaluation

An expression is evaluated against a store, for the values of one combination and within a scope.
Operands are evaluated from left to right. A condition is evaluated before anything that depends on
it, and what a condition rules out is not evaluated at all. Names that should have been put in place
have no value.
-/

namespace PlanLedger.Formula

/-- What an expression is evaluated against. -/
structure Context where
  store : Store
  registry : Registry
  scope : Scope := {}
  bindings : Bindings := ∅

/-- The value of a cell reference, or the aggregate of the cells it stands for. -/
def CellRef.evaluate (x : Context) (ref : CellRef) : Except FormulaError Value := do
  let (keyFigure, filter) ← ref.resolve x.registry x.bindings
  match ref.aggregate with
  | none => return .number (x.store.get keyFigure filter x.scope)
  | some kind =>
    match x.store.aggregate? kind keyFigure filter x.scope with
    | some value => return .number value
    | none => .error .outOfRange

/-- Checks the number of arguments of a call. -/
def checkCall (f : Function) (args : List Expr) : Except FormulaError Unit :=
  match f.checkArity args.length with
  | .ok () => .ok ()
  | .error fault => .error (.arity fault)

mutual

def Expr.evaluate (x : Context) : Expr → Except FormulaError Value
  | .number value => .ok (.number value)
  | .cell ref => ref.evaluate x
  | .binary op left right => do
    let a ← left.evaluate x
    let b ← right.evaluate x
    ofCalculation (op.apply a b)
  | .negate operand => do
    let v ← operand.evaluate x
    return .number (← ofCalculation v.toNumber).neg
  | .call name args =>
    match Function.ofName? name with
    | none => .error (.unsupported (.function name))
    | some f => do
      checkCall f args
      match f with
      | .eager f => f.apply (← evaluateAll x args)
      | .ifThenElse => evaluateIf x args
      | .caseWhen => evaluateCase x args
  | .subFormula name => .error (.unsupported (.subFormula name))
  | .constant name => .error (.unsupported (.constant name))
  | .reference call => .error (.unsupported (.reference call.name))

def evaluateAll (x : Context) : List Expr → Except FormulaError (List Value)
  | [] => .ok []
  | e :: rest => do
    let v ← e.evaluate x
    let values ← evaluateAll x rest
    return v :: values

/-- The value of the second expression if the first holds, and of the third if not. -/
def evaluateIf (x : Context) : List Expr → Except FormulaError Value
  | [condition, value, otherwise] => do
    if (← condition.evaluate x).isTruthy then value.evaluate x else otherwise.evaluate x
  | args => .error (.arity ⟨.ifThenElse, args.length⟩)

/-- The value after the first condition that holds, or else the last value; zero if there is
none. -/
def evaluateCase (x : Context) : List Expr → Except FormulaError Value
  | condition :: value :: rest => do
    if (← condition.evaluate x).isTruthy then value.evaluate x else evaluateCase x rest
  | [otherwise] => otherwise.evaluate x
  | [] => .ok (.number .zero)

end

/-- The value of an expression as the result of a formula: a number, rounded to a count of decimals
and filled up to it with zeros. -/
def Expr.evaluateScalar (x : Context) (scale : Nat) (e : Expr) : Except FormulaError Decimal := do
  match ← e.evaluate x with
  | .number n => return n.toPlaces scale
  | .boolean b => .error (.evaluation (.booleanResult b))

end PlanLedger.Formula
