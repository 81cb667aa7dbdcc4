import PlanLedger.Dimension.Basic
import PlanLedger.Text.Digits

/-!
# Master lists

The master list of a dimension holds its values. It finds a value by its number and by its code,
and it lists its values in the order of their codes. A code is taken once; a value with a number
that is already there takes the place of the value found by that number.
-/

namespace PlanLedger

/-- One value of a dimension. -/
structure DimensionValue where
  id : DimId
  code : String
  name : String := ""
deriving DecidableEq

/-- The values of one dimension, found by number and by code. -/
structure MasterList where
  /-- The value of each number. -/
  values : SortedMap DimId DimensionValue := ∅
  /-- The number that each code stands for. -/
  byCode : SortedMap String DimId := ∅
deriving DecidableEq

namespace MasterList

def insert? (m : MasterList) (v : DimensionValue) : Option MasterList :=
  if m.byCode.contains v.code then none
  else some { values := m.values.insert v.id v, byCode := m.byCode.insert v.code v.id }

def idOfCode? (m : MasterList) (code : String) : Option DimId := m.byCode.get? code

def value? (m : MasterList) (id : DimId) : Option DimensionValue := m.values.get? id

/-- The number that a text stands for: a code, or else the digits of the number of a value. -/
def idOfLiteral? (m : MasterList) (text : String) : Option DimId :=
  match m.idOfCode? text with
  | some id => some id
  | none => do
    let id ← Text.readNat? (2 ^ 32) text.toList
    let v ← m.value? id
    some v.id

/-- The numbers of all values in the order of their codes. -/
def ids (m : MasterList) : List DimId := m.byCode.values

def listed (m : MasterList) : List DimensionValue := m.ids.filterMap m.value?

def size (m : MasterList) : Nat := m.values.size

/-- The code of a number, or its digits if no value has that number. -/
def codeOrId (m : MasterList) (id : DimId) : String :=
  match m.value? id with
  | some v => v.code
  | none => toString id

end MasterList

end PlanLedger
