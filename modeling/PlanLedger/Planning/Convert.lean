import PlanLedger.Planning.Work

/-!
# Converting units

Every current fact of a session that has a unit with a factor to the target unit is restated in the
target unit. Its reference value is restated with it, unless it has a unit of its own that cannot be
converted. A fact is restated as a whole or not at all.
-/

namespace PlanLedger

open Formula (UnitConversions)

/-- A number times a factor, as a result with a count of decimals. -/
def convertNumber? (d factor : Decimal) (places : Nat) : Option Decimal :=
  (d.mul? factor).map (·.toPlaces places)

/-- The factor for the reference value of a fact whose value has the unit `unit`, if the reference
value is to be restated. -/
def refFactor? (conversions : UnitConversions) (factor : Decimal) (unit target : String) :
    Option String → Option Decimal
  | none => some factor
  | some refUnit =>
    if refUnit = unit then some factor
    else if refUnit = target then none
    else conversions.factor? refUnit target

def convertValues (conversions : UnitConversions) (places : Nat) (factor : Decimal)
    (unit target : String) (values : FactValues) : Except RowFault FactValues := do
  match convertNumber? values.value factor places with
  | none => .error (.convertOverflow unit target)
  | some value =>
    let values := { values with value, unit := some target }
    match refFactor? conversions factor unit target values.refUnit with
    | none => return values
    | some refFactor =>
      match convertNumber? values.refValue refFactor places with
      | none => .error .referenceOverflow
      | some refValue =>
        return { values with refValue, refUnit := values.refUnit.map fun _ ↦ target }

/-- The unit of a fact and the factor from it, if the fact is to be restated. -/
def conversionOf? (x : WorkContext) (target : String) (fact : Fact) :
    Option (String × Decimal) := do
  let unit ← fact.values.unit
  if unit = target then none
  else return (unit, ← x.catalog.conversions.factor? unit target)

def convertFact (x : WorkContext) (target : String) (fact : Fact) : Working Tally :=
  match conversionOf? x target fact with
  | none => return {}
  | some (unit, factor) =>
    match convertValues x.catalog.conversions x.scale factor unit target fact.values with
    | .error fault => return x.rejected [fact] fault
    | .ok values => x.put fact.key values fact.value

/-- Restates the facts of a session in the target unit. -/
def convert (x : WorkContext) (target : String) : Working Tally := do
  tallyOver (convertFact x target) ((← Working.store).selectCurrent ∅ x.scope)

end PlanLedger
