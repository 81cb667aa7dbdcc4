import PlanLedger.Decimal.Basic
import PlanLedger.Dimension.Basic
import PlanLedger.Fact.Aggregate

/-!
# Formulas

A formula assigns the value of an expression to a cell. Expressions are built from numbers, cells,
operators and calls. Three kinds of leaves stand for something else until a formula is prepared:
the name of a sub-formula, the name of a constant, and a look-up in reference data.
-/

namespace PlanLedger.Formula

/-! ## Operators -/

/-- The operators that calculate. -/
inductive Arithmetic where
  | add
  | subtract
  | multiply
  | divide
  | power
deriving DecidableEq

/-- The operators that compare. -/
inductive Comparison where
  | equal
  | notEqual
  | less
  | lessEqual
  | greater
  | greaterEqual
deriving DecidableEq

/-- An operator between two operands. -/
inductive BinaryOp where
  | arithmetic (op : Arithmetic)
  | comparison (op : Comparison)
deriving DecidableEq

def Arithmetic.sign : Arithmetic → String
  | add => "+"
  | subtract => "-"
  | multiply => "*"
  | divide => "/"
  | power => "^"

def Comparison.sign : Comparison → String
  | equal => "="
  | notEqual => "<>"
  | less => "<"
  | lessEqual => "<="
  | greater => ">"
  | greaterEqual => ">="

def BinaryOp.sign : BinaryOp → String
  | arithmetic op => op.sign
  | comparison op => op.sign

/-! ## References -/

/-- A value on a dimension: a code or digits as they were written, the number of a value, or the
value that the current combination has. -/
inductive DimValue where
  | code (text : String)
  | id (id : DimId)
  | loop
deriving DecidableEq

/-- A dimension and the value asked for on it. -/
structure DimFilter where
  dimension : Dimension
  value : DimValue
deriving DecidableEq

/-- A reference to a cell, or with an aggregate to many cells. -/
structure CellRef where
  aggregate : Option Aggregate := none
  filters : List DimFilter := []
  keyFigure : DimValue
  optional : Bool := false
deriving DecidableEq

namespace CellRef

/-- The reference to a key figure without filters. -/
def bare (code : String) : CellRef := { keyFigure := .code code }

/-- Whether a filter asks for the value of the current combination. -/
def usesLoop (r : CellRef) : Bool := r.filters.any fun f ↦ f.value == .loop

end CellRef

/-- A look-up in reference data, narrowed by filters. -/
structure ReferenceCall where
  name : String
  filters : List DimFilter := []
deriving DecidableEq

/-! ## Expressions -/

/-- An expression. -/
inductive Expr where
  | number (value : Decimal)
  | cell (ref : CellRef)
  | binary (op : BinaryOp) (left right : Expr)
  | negate (operand : Expr)
  | call (function : String) (args : List Expr)
  | subFormula (name : String)
  | constant (name : String)
  | reference (call : ReferenceCall)

instance : Inhabited Expr := ⟨.number .zero⟩

namespace Expr

def kind : Expr → String
  | number _ => "number"
  | cell _ => "cell reference"
  | binary .. => "binary operation"
  | negate _ => "unary operation"
  | call .. => "function call"
  | subFormula _ => "sub-formula"
  | constant _ => "constant"
  | reference _ => "reference data lookup"

mutual

/-- An expression and all expressions within it, each before its parts, from left to right. -/
def nodes : Expr → List Expr
  | binary op left right => binary op left right :: (left.nodes ++ right.nodes)
  | negate operand => negate operand :: operand.nodes
  | call function args => call function args :: nodesOfAll args
  | e => [e]

/-- The expressions within the expressions of a list. -/
def nodesOfAll : List Expr → List Expr
  | [] => []
  | e :: rest => e.nodes ++ nodesOfAll rest

end

mutual

/-- Whether two expressions are the same, with a test for what counts as the same number. -/
def sameBy (p : Decimal → Decimal → Bool) : Expr → Expr → Bool
  | number a, number b => p a b
  | cell a, cell b => a == b
  | binary op left right, binary op' left' right' =>
    op == op' && left.sameBy p left' && right.sameBy p right'
  | negate a, negate b => a.sameBy p b
  | call f args, call g args' => f == g && sameAllBy p args args'
  | subFormula a, subFormula b => a == b
  | constant a, constant b => a == b
  | reference a, reference b => a == b
  | _, _ => false

/-- Whether two lists hold the same expressions. -/
def sameAllBy (p : Decimal → Decimal → Bool) : List Expr → List Expr → Bool
  | [], [] => true
  | a :: as, b :: bs => a.sameBy p b && sameAllBy p as bs
  | _, _ => false

end

/-- Whether two expressions are the same, numbers compared by value. -/
def same : Expr → Expr → Bool := sameBy Decimal.sameValue

mutual

theorem sameBy_beq_iff : (a b : Expr) → (a.sameBy (· == ·) b = true ↔ a = b)
  | number _, b => by cases b <;> simp [sameBy]
  | cell _, b => by cases b <;> simp [sameBy]
  | binary _ left right, b => by
    cases b <;> simp [sameBy, sameBy_beq_iff left, sameBy_beq_iff right, and_assoc]
  | negate operand, b => by cases b <;> simp [sameBy, sameBy_beq_iff operand]
  | call _ args, b => by cases b <;> simp [sameBy, sameAllBy_beq_iff args]
  | subFormula _, b => by cases b <;> simp [sameBy]
  | constant _, b => by cases b <;> simp [sameBy]
  | reference _, b => by cases b <;> simp [sameBy]

theorem sameAllBy_beq_iff : (as bs : List Expr) → (sameAllBy (· == ·) as bs = true ↔ as = bs)
  | [], bs => by cases bs <;> simp [sameAllBy]
  | a :: as, bs => by cases bs <;> simp [sameAllBy, sameBy_beq_iff a, sameAllBy_beq_iff as]

end

-- Calls nest expressions in lists, which no handler derives a decision for.
instance : DecidableEq Expr := fun a b ↦ decidable_of_iff _ (sameBy_beq_iff a b)

mutual

/-- Puts an expression in the place of every leaf, from left to right, up to the first failure. -/
def bindLeaves {ε : Type} (f : Expr → Except ε Expr) : Expr → Except ε Expr
  | binary op left right => do
    let left ← left.bindLeaves f
    let right ← right.bindLeaves f
    return binary op left right
  | negate operand => return negate (← operand.bindLeaves f)
  | call function args => return call function (← bindLeavesOfAll f args)
  | e => f e

/-- Puts expressions in the places of the leaves of the expressions of a list. -/
def bindLeavesOfAll {ε : Type} (f : Expr → Except ε Expr) : List Expr → Except ε (List Expr)
  | [] => return []
  | e :: rest => do
    let e ← e.bindLeaves f
    let rest ← bindLeavesOfAll f rest
    return e :: rest

end

/-! ## What an expression mentions -/

/-- The names of the sub-formulas in an expression, in order and without repetition. -/
def subFormulaNames (e : Expr) : List String :=
  SortedMap.distinct <| e.nodes.filterMap fun
    | subFormula name => some name
    | _ => none

/-- Whether an expression looks up reference data. -/
def hasReferences (e : Expr) : Bool :=
  e.nodes.any fun
    | reference _ => true
    | _ => false

/-- The filters of an expression's cells and look-ups, from left to right. -/
def filters (e : Expr) : List DimFilter :=
  e.nodes.flatMap fun
    | cell r => r.filters
    | reference c => c.filters
    | _ => []

end Expr

/-- A formula: the cell that is assigned, and what is assigned to it. -/
structure Statement where
  target : CellRef
  expr : Expr
deriving DecidableEq

/-- The dimensions on which filters ask for the value of the current combination, in order and
without repetition. -/
def loopDimensions (filters : List DimFilter) : List Dimension :=
  SortedMap.distinct ((filters.filter fun f ↦ f.value == .loop).map (·.dimension))

end PlanLedger.Formula
