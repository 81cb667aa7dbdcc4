import PlanLedger.Formula.Reading

/-!
# The catalog

The catalog names what formulas may use: constants, sub-formulas, which are texts of expressions,
sources of reference data, and factors between units.
-/

namespace PlanLedger.Formula

/-- A source of reference data: an aggregate of a key figure over the facts that its codes
select. -/
structure ReferenceData where
  name : String
  keyFigure : String
  kind : Aggregate := .sum
  version : Option String := none
  year : Option String := none
  /-- The code asked for on each named dimension. -/
  filter : SortedMap String String := ∅
deriving DecidableEq

/-- The factors from each unit to other units. -/
abbrev UnitConversions := SortedMap String (SortedMap String Decimal)

namespace UnitConversions

def factor? (u : UnitConversions) (source target : String) : Option Decimal := do
  (← u.get? source).get? target

/-- Sets the factor from one unit to another. -/
def withFactor (u : UnitConversions) (source target : String) (factor : Decimal) :
    UnitConversions :=
  u.insert source (((u.get? source).getD ∅).insert target factor)

/-- All factors with their units, in the order of the units. -/
def listed (u : UnitConversions) : List (String × String × Decimal) :=
  u.toList.flatMap fun e ↦ e.2.toList.map fun t ↦ (e.1, t.1, t.2)

end UnitConversions

/-- What formulas may use. -/
structure Catalog where
  constants : SortedMap String Decimal := ∅
  subFormulas : SortedMap String String := ∅
  references : SortedMap String ReferenceData := ∅
  conversions : UnitConversions := ∅
deriving DecidableEq

namespace Catalog

def constant (c : Catalog) (name : String) : Except FormulaError Decimal :=
  match c.constants.get? name with
  | some value => .ok value
  | none => .error (.unknownConstant name)

def subFormula (c : Catalog) (name : String) : Except FormulaError String :=
  match c.subFormulas.get? name with
  | some text => .ok text
  | none => .error (.unknownSubFormula name)

def reference (c : Catalog) (name : String) : Except FormulaError ReferenceData :=
  match c.references.get? name with
  | some data => .ok data
  | none => .error (.unknownReference name)

/-- The expression that a sub-formula stands for. -/
def body (c : Catalog) (name : String) : Except FormulaError Expr := do
  readWith parseExpr (some name) (← c.subFormula name)

/-! ## Adding entries -/

def withConstant (c : Catalog) (name : String) (value : Decimal) : Catalog :=
  { c with constants := c.constants.insert name value }

def withSubFormula (c : Catalog) (name text : String) : Catalog :=
  { c with subFormulas := c.subFormulas.insert name text }

/-- The catalog with a source of reference data, found by its own name. -/
def withReference (c : Catalog) (data : ReferenceData) : Catalog :=
  { c with references := c.references.insert data.name data }

/-- The catalog with a factor between two units. -/
def withConversion (c : Catalog) (source target : String) (factor : Decimal) : Catalog :=
  { c with conversions := c.conversions.withFactor source target factor }

end Catalog

end PlanLedger.Formula
