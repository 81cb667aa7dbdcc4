import PlanLedger.Decimal.Power
import PlanLedger.Formula.Error

/-!
# Values and operations

The value of an expression is a number or a truth value. Operators and functions are applied to
values; where a condition is needed, a number counts as true if it is not zero, and where a number
is needed, a truth value is a fault.
-/

namespace PlanLedger.Formula

/-- The value of an expression. -/
inductive Value where
  | number (n : Decimal)
  | boolean (b : Bool)
deriving DecidableEq

namespace Value

def toNumber : Value → Except EvaluationFault Decimal
  | number n => .ok n
  | boolean b => .error (.expectedNumber b)

/-- Whether a value counts as true. -/
def isTruthy : Value → Bool
  | number n => !n.isZero
  | boolean b => b

def toText : Value → String
  | number n => n.toText
  | boolean true => "TRUE"
  | boolean false => "FALSE"

end Value

/-! ## Operators -/

/-- Whether two numbers compare as an operator asks. -/
def Comparison.holds (op : Comparison) (order : Ordering) : Bool :=
  match op with
  | equal => order == .eq
  | notEqual => order != .eq
  | less => order == .lt
  | lessEqual => order != .gt
  | greater => order == .gt
  | greaterEqual => order != .lt

/-- Compares two values. A truth value differs from every number and has no order. -/
def Comparison.apply (op : Comparison) : Value → Value → Except EvaluationFault Bool
  | .number a, .number b => .ok (op.holds (a.cmp b))
  | .boolean a, .boolean b =>
    match op with
    | equal => .ok (a == b)
    | notEqual => .ok (a != b)
    | op => .error (.unorderedBooleans op)
  | _, _ =>
    match op with
    | equal => .ok false
    | notEqual => .ok true
    | op => .error (.unorderedBooleans op)

def Arithmetic.apply (op : Arithmetic) (a b : Decimal) : Except EvaluationFault Decimal :=
  let orOverflow : Option Decimal → Except EvaluationFault Decimal
    | some d => .ok d
    | none => .error (.overflow a op b)
  match op with
  | add => orOverflow (a.add? b)
  | subtract => orOverflow (a.sub? b)
  | multiply => orOverflow (a.mul? b)
  | divide => if b.isZero then .error .divisionByZero else orOverflow (a.div? b)
  | power =>
    if a.isZero && b.below .zero then .error (.zeroToNegativePower a b)
    else if a.below .zero && !b.isWhole then .error (.powerDomain a b)
    else orOverflow (a.pow? b)

def BinaryOp.apply (op : BinaryOp) (a b : Value) : Except EvaluationFault Value :=
  match op with
  | arithmetic op => do
    let x ← a.toNumber
    let y ← b.toNumber
    return .number (← op.apply x y)
  | comparison op => return .boolean (← op.apply a b)

/-! ## Functions -/

def numbersOf (args : List Value) : Except EvaluationFault (List Decimal) :=
  args.mapM Value.toNumber

def firstNumber (f : EagerFunction) : List Value → Except EvaluationFault Decimal
  | v :: _ => v.toNumber
  | [] => .error (.missingArgument f)

/-- Picks one of the numbers that the arguments are, going through them from the first. -/
def pickNumber (f : EagerFunction) (pick : Decimal → Decimal → Decimal) (args : List Value) :
    Except EvaluationFault Value := do
  match ← numbersOf args with
  | n :: rest => return .number (rest.foldl pick n)
  | [] => throw (.noArguments f)

/-- The places to which a rounding is asked for, between -28 and 28. -/
def roundingDigits : Option Value → Except EvaluationFault Int
  | none => .ok 0
  | some v => do
    let digits ← v.toNumber
    if digits.isWhole then
      if -28 ≤ digits.truncate ∧ digits.truncate ≤ 28 then return digits.truncate
      else throw .digitsOutOfRange
    else throw .digitsNotWhole

/-- Rounds to tens, hundreds and so on: to whole multiples of `10 ^ k`. There is no answer if the
multiple does not fit. -/
def roundToMultiple? (d : Decimal) (k : Nat) : Option Decimal := do
  let factor ← Decimal.ofParts? false (10 ^ k) 0
  let quotient ← d.div? factor
  (quotient.roundTo 0).mul? factor

/-- Rounds to a number of places, before the point if it is negative. -/
def roundNumber (d : Decimal) (digits : Int) : Except FormulaError Decimal :=
  if 0 ≤ digits then .ok (d.roundTo digits.toNat)
  else match roundToMultiple? d digits.natAbs with
    | some r => .ok r
    | none => .error .outOfRange

/-- Applies a function to the values of its arguments. -/
def EagerFunction.apply (f : EagerFunction) (args : List Value) : Except FormulaError Value :=
  match f with
  | abs => ofCalculation do return .number (← firstNumber f args).abs
  | and => .ok (.boolean (args.all Value.isTruthy))
  | or => .ok (.boolean (args.any Value.isTruthy))
  | not => .ok (.boolean !((args.head?.map Value.isTruthy).getD false))
  | min => ofCalculation (pickNumber f Decimal.min args)
  | max => ofCalculation (pickNumber f (fun a b ↦ if b.below a then a else b) args)
  | round => do
    let d ← ofCalculation (firstNumber f args)
    let digits ← ofCalculation (roundingDigits args[1]?)
    return .number (← roundNumber d digits)

end PlanLedger.Formula
