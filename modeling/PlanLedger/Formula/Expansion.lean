import PlanLedger.Formula.Catalog

/-!
# Expansion

Before a formula runs, its sub-formulas are put in place of their names, its constants become
numbers and the codes in it become the numbers of values. Everything that is missing is found then.
A sub-formula that would have to be put into itself is a cycle, and names may only be followed to
a given depth.
-/

namespace PlanLedger.Formula

/-! ## Codes -/

/-- A filter with the code replaced by the number of its value. -/
def DimFilter.expand (r : Registry) (f : DimFilter) : Except DimensionError DimFilter := do
  let _ ← r.list f.dimension
  match f.value with
  | .code text => return { f with value := .id (← r.resolve f.dimension text) }
  | _ => return f

/-- A key figure with the code replaced by the number of its value. -/
def expandKeyFigure (r : Registry) : DimValue → Except FormulaError DimValue
  | .code text => return .id (← ofRegistry (r.resolve .keyFigure text))
  | .loop => .error (.unsupported .loopKeyFigure)
  | v => .ok v

/-- A cell reference with all codes replaced, the key figure first. -/
def CellRef.expand (r : Registry) (ref : CellRef) : Except FormulaError CellRef := do
  let keyFigure ← expandKeyFigure r ref.keyFigure
  let filters ← ofRegistry (ref.filters.mapM (DimFilter.expand r))
  return { ref with keyFigure, filters }

/-! ## Expressions -/

/-- What is put in place of a leaf, where `open` gives the expansion of a sub-formula. -/
def expandLeaf (c : Catalog) (r : Registry) (openName : String → Except FormulaError Expr) :
    Expr → Except FormulaError Expr
  | .subFormula name => openName name
  | .constant name => return .number (← c.constant name)
  | .cell ref => return .cell (← ref.expand r)
  | .reference call => do
    let _ ← c.reference call.name
    return .reference { call with filters := ← ofRegistry (call.filters.mapM (DimFilter.expand r)) }
  | e => .ok e

/-- The names from the place of `name` among those followed so far, back to `name`. -/
def cycleTo (followed : List String) (name : String) : List String :=
  followed.dropWhile (· != name) ++ [name]

/-- Expands an expression inside the sub-formulas `followed`, when `room` more may be followed. -/
def expandWithin (c : Catalog) (r : Registry) (limit : Nat) :
    (room : Nat) → (followed : List String) → Expr → Except FormulaError Expr
  | 0, followed, e => e.bindLeaves <| expandLeaf c r fun name ↦
    if name ∈ followed then .error (.cyclicExpansion (cycleTo followed name))
    else .error (.expansionTooDeep limit (followed ++ [name]))
  | room + 1, followed, e => e.bindLeaves <| expandLeaf c r fun name ↦
    if name ∈ followed then .error (.cyclicExpansion (cycleTo followed name))
    else do expandWithin c r limit room (followed ++ [name]) (← c.body name)

/-- Expands an expression, following names to the depth `limit`. -/
def Expr.expand (c : Catalog) (r : Registry) (limit : Nat) (e : Expr) : Except FormulaError Expr :=
  expandWithin c r limit limit [] e

/-- Expands a formula, the target first. An aggregate cannot be a target. -/
def Statement.expand (c : Catalog) (r : Registry) (limit : Nat) (s : Statement) :
    Except FormulaError Statement := do
  match s.target.aggregate with
  | some kind => .error (.invalidTarget (.aggregate kind))
  | none => return ⟨← s.target.expand r, ← s.expr.expand c r limit⟩

end PlanLedger.Formula
