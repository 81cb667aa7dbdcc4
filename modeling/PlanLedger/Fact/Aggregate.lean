import PlanLedger.Decimal.Arithmetic

/-!
# Aggregates

The four ways to make one number of many: their sum, average, least and greatest. No number at all
gives zero.
-/

namespace PlanLedger

/-- A way to make one number of many. -/
inductive Aggregate where
  | sum
  | avg
  | min
  | max
deriving DecidableEq

namespace Aggregate

def tag : Aggregate → String
  | sum => "SUM"
  | avg => "AVG"
  | min => "MIN"
  | max => "MAX"

def ofTag? : String → Option Aggregate
  | "SUM" => some sum
  | "AVG" => some avg
  | "MIN" => some min
  | "MAX" => some max
  | _ => none

/-- The aggregate of a name, whatever the case of its letters. -/
def ofName? (s : String) : Option Aggregate := ofTag? s.toUpper

def step? : Aggregate → Decimal → Decimal → Option Decimal
  | sum, a, b => a.add? b
  | avg, a, b => a.add? b
  | min, a, b => some (a.min b)
  | max, a, b => some (a.max b)

/-- The aggregate of a list of numbers, from the first to the last. There is no answer if a sum
does not fit. -/
def ofValues? (kind : Aggregate) : List Decimal → Option Decimal
  | [] => some .zero
  | v :: rest => do
    let total ← rest.foldlM kind.step? v
    match kind with
    | avg => total.div? (← Decimal.ofInt? (rest.length + 1 : Nat))
    | _ => some total

end Aggregate

end PlanLedger
